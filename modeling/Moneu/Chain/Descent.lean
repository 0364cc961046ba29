/-
# Descendants of invalid blocks

When a block of a new branch is refused, `ActivateBestChainLocked` marks it and the blocks above it ON THE
BRANCH IT WAS WORKING ON.  A stored block on another branch above the same block is not found by that loop,
which only has the one path.  A block that comes later is refused when its parent is marked, so nothing is
missed there.

The marks are closed under descent as long as no branch that is tried has a second one growing out of it off
the active chain (`invalidBlocks_closed`).
-/
import Moneu.Chain.TxIndex

namespace Moneu

open NetParams Journal UTXOSet BlockData ChainState

/-! ## 1. Descent -/

/-- The stored block `d` stands on `b`; genesis stands on nothing. -/
def StandsOn (bd : BlockData) (b d : Bytes32) : Prop :=
  d ≠ getGenesisHash ∧ ∃ e, bd.readBlockIndex d = some e ∧ e.hashPrev = b

/-- A stored block on a block held for invalid is held for invalid. -/
structure Closed (s : ChainState) : Prop where
  child : ∀ b ∈ s.invalidBlocks, ∀ d, StandsOn s.blockData b d → d ∈ s.invalidBlocks

theorem Closed.of_empty {s : ChainState} (h : s.invalidBlocks = ∅) : Closed s := by
  refine ⟨fun b hb => ?_⟩
  rw [h] at hb
  exact absurd hb (Finset.notMem_empty b)

theorem Closed.descends {s : ChainState} (h : Closed s) {b d : Bytes32} (hb : b ∈ s.invalidBlocks)
    (hd : Relation.TransGen (StandsOn s.blockData) b d) : d ∈ s.invalidBlocks := by
  induction hd with
  | single hlast => exact h.child _ hb _ hlast
  | tail _ hlast ih => exact h.child _ ih _ hlast

theorem StandsOn.mono {bd bd' : BlockData} (hkeeps : Keeps bd bd') {b d : Bytes32}
    (h : StandsOn bd b d) : StandsOn bd' b d := by
  obtain ⟨hne, e, he, hprev⟩ := h
  obtain ⟨pos, he', -⟩ := hkeeps d e he
  exact ⟨hne, _, he', hprev⟩

theorem Closed.step {s s' : ChainState} (h : Closed s) (hstep : StepFrom s s') : Closed s' := by
  refine ⟨fun b hb d hd => ?_⟩
  rw [hstep.invalid] at hb ⊢
  exact h.child b hb d (hd.mono hstep.back)

theorem StandsOn.parent {bd : BlockData} (h : StoreInv bd) {b d : Bytes32} (hd : StandsOn bd b d) :
    bd.hasBlock b = true := by
  obtain ⟨hne, e, he, rfl⟩ := hd
  obtain ⟨parent, hparent, -⟩ := h.parent he hne
  rw [hasBlock, hparent]
  rfl

theorem Links.entry {bd : BlockData} {base : Bytes32} : ∀ (pre : List Bytes32) {y : Bytes32}
    {post : List Bytes32}, Links bd base (pre ++ y :: post) →
      ∃ e, bd.readBlockIndex y = some e ∧ e.hashPrev = post.headD base
  | [], _, _, h => h.1
  | _ :: pre, _, _, h => Links.entry pre h.2

theorem Links.descends {bd : BlockData} {base : Bytes32} : ∀ {l : List Bytes32} {y x : Bytes32},
    Links bd base (y :: l) → getGenesisHash ∉ y :: l → x ∈ l →
      Relation.TransGen (StandsOn bd) x y
  | z :: l, y, x, h, hgen, hx => by
    obtain ⟨⟨e, he, hprev⟩, hrest⟩ := h
    obtain ⟨hy, hgen'⟩ := List.ne_and_not_mem_of_not_mem_cons hgen
    have hlast : StandsOn bd z y := ⟨hy.symm, e, he, hprev⟩
    rcases List.mem_cons.mp hx with rfl | hx
    · exact .single hlast
    · exact .tail (Links.descends hrest hgen' hx) hlast

/-! ## 2. Storing a block -/

section Stored

variable [Ed25519] {s s₁ : ChainState} {p : List Block} {now : UInt64} {b : Block}
  {parent : BlockIndexEntry}

omit [Ed25519] in
theorem StoredFrom.standsOn (h : StoredFrom s b parent s₁) {x d : Bytes32}
    (hd : StandsOn s₁.blockData x d) :
    (d = b.getHash ∧ x = b.header.prevBlockHash) ∨ StandsOn s.blockData x d := by
  obtain ⟨hne, e, he, hprev⟩ := hd
  by_cases heq : d = b.getHash
  · obtain ⟨pos, hentry, -⟩ := h.entry
    rw [heq, hentry] at he
    cases he
    exact .inl ⟨heq, hprev.symm⟩
  · rw [h.other d heq] at he
    exact .inr ⟨hne, e, he, hprev⟩

theorem Storable.ne_genesis (hst : Storable s now b parent) (hinv : Inv s p) :
    b.getHash ≠ getGenesisHash := by
  intro heq
  obtain ⟨pos, hgen, -⟩ := hinv.store.genesis
  have hnew := hst.new
  rw [heq, ← buildGenesisBlock_getHash, hasBlock, hgen] at hnew
  cases hnew

theorem Storable.no_child (hst : Storable s now b parent) (hinv : Inv s p)
    (h : StoredFrom s b parent s₁) (d : Bytes32) : ¬ StandsOn s₁.blockData b.getHash d := by
  intro hd
  have hnew : s.blockData.hasBlock b.getHash = false := hst.new
  rcases h.standsOn hd with ⟨-, hself⟩ | hold
  · have hparent : s.blockData.hasBlock b.getHash = true := by
      rw [hself, hasBlock, hst.onParent]
      rfl
    exact absurd hparent (by simp [hnew])
  · exact absurd (hold.parent hinv.store) (by simp [hnew])

/-- **A new block is stored on a block that is not marked.** -/
theorem Closed.stored (h : Closed s) (hst : Storable s now b parent) (hstored : StoredFrom s b parent s₁) :
    Closed s₁ := by
  refine ⟨fun x hx d hd => ?_⟩
  rw [hstored.invalid] at hx ⊢
  rcases hstored.standsOn hd with ⟨-, rfl⟩ | hold
  · exact absurd hx hst.parentValid
  · exact h.child x hx d hold

/-- The ancestors of the new block besides its parent were ancestors of its parent before. -/
theorem Storable.ancestors (hst : Storable s now b parent) (hinv : Inv s p)
    (h : StoredFrom s b parent s₁) {x : Bytes32}
    (hx : Relation.TransGen (StandsOn s₁.blockData) x b.getHash) :
    Relation.ReflTransGen (StandsOn s.blockData) x b.header.prevBlockHash := by
  have hback : ∀ {y z : Bytes32}, Relation.TransGen (StandsOn s₁.blockData) y z → z ≠ b.getHash →
      Relation.ReflTransGen (StandsOn s.blockData) y z := by
    intro y z hyz
    induction hyz with
    | single hlast => exact fun hz => .single ((h.standsOn hlast).resolve_left fun he => hz he.1)
    | @tail w z _ hlast ih =>
      intro hz
      have hmid : w ≠ b.getHash := by
        rintro rfl
        exact hst.no_child hinv h _ hlast
      exact .tail (ih hmid) ((h.standsOn hlast).resolve_left fun he => hz he.1)
  have hparent : ∀ {y : Bytes32}, StandsOn s₁.blockData y b.getHash → y = b.header.prevBlockHash := by
    rintro y ⟨-, e, he, rfl⟩
    obtain ⟨pos, hentry, -⟩ := h.entry
    rw [hentry] at he
    cases he
    rfl
  cases hx with
  | single hlast =>
    rw [hparent hlast]
  | tail hfirst hlast =>
    obtain rfl := hparent hlast
    refine hback hfirst ?_
    rintro heq
    exact hst.no_child hinv h _ (heq ▸ hlast)

end Stored

/-! ## 3. Runs -/

section Runs

variable [Ed25519]

/-- If the block is stored and has more work than the tip, then off the active chain no second branch grows
out of its ancestors: its parent has no child yet, and every other ancestor has one child, not counting
blocks held for invalid. -/
def SoleBranch (s : ChainState) (now : UInt64) (b : Block) : Prop :=
  ∀ parent, Storable s now b parent →
    compareWork (addChainWork parent.nChainWork b.header.bits) s.bestChain.chainWork = .gt →
    ∀ x, s.isOnActiveChain x = false → x ≠ getGenesisHash →
      Relation.ReflTransGen (StandsOn s.blockData) x b.header.prevBlockHash →
      ∀ d, StandsOn s.blockData x d → d ∉ s.invalidBlocks → x ≠ b.header.prevBlockHash ∧
        ∀ d', StandsOn s.blockData x d' → d' ∉ s.invalidBlocks → d' = d

omit [Ed25519] in
theorem mem_mark {s : ChainState} {hashes : List Bytes32} {hash : Bytes32} :
    hash ∈ (s.mark hashes).invalidBlocks ↔ hash ∈ hashes ∨ hash ∈ s.invalidBlocks := by
  unfold ChainState.mark
  induction hashes generalizing s with
  | nil => simp
  | cons x hashes ih =>
    have hstep := ih (s := { s with invalidBlocks := insert x s.invalidBlocks })
    simp only [List.foldl_cons] at hstep ⊢
    rw [hstep, Finset.mem_insert, List.mem_cons]
    tauto

theorem Closed.failed {s s₁ : ChainState} {p : List Block} {now : UInt64} {b : Block}
    {parent : BlockIndexEntry} {marked : List Bytes32} (h : Closed s) (hinv : Inv s p)
    (hst : Storable s now b parent) (hstored : StoredFrom s b parent s₁) (hinv₁ : Inv s₁ p)
    (hwork : compareWork (addChainWork parent.nChainWork b.header.bits) s.bestChain.chainWork = .gt)
    (hsole : SoleBranch s now b) (hfailed : Failed s₁ p b.getHash marked) : Closed (s₁.mark marked) := by
  have hclosed₁ := h.stored hst hstored
  refine ⟨fun x hx d hd => ?_⟩
  rw [mem_mark] at hx ⊢
  by_cases hold : d ∈ s₁.invalidBlocks
  · exact .inr hold
  rcases hx with hx | hx
  swap
  · exact .inr (hclosed₁.child x hx d hd)
  left
  rcases hfailed with ⟨rfl, -⟩ | ⟨newBranch, pre, q, up, bad, rest, s₂, hattempt, hsplit, -, -, hstop⟩
  · cases hx
  rcases hstop with ⟨rfl, -⟩ | ⟨rfl, -⟩
  swap
  · cases hx
  obtain ⟨fork, hbranch, -⟩ := hattempt.branch
  -- the branch, tip first: what was marked, and what was connected before
  have hnew : newBranch = (bad :: rest).reverse ++ (up.map Block.getHash).reverse := by
    rw [← List.reverse_append, ← hsplit, List.reverse_reverse]
  obtain ⟨above, below, hmarked⟩ := List.append_of_mem (List.mem_reverse.mpr hx)
  have hparts : newBranch = above ++ x :: (below ++ (up.map Block.getHash).reverse) := by
    rw [hnew, hmarked, List.append_assoc, List.cons_append]
  have hgen : getGenesisHash ∉ newBranch := hbranch.above (hst.ne_genesis hinv)
  have hxne : x ≠ b.getHash := by
    rintro rfl
    exact hst.no_child hinv hstored d hd
  -- the block above `x` on the branch
  obtain ⟨above', y, rfl⟩ : ∃ above' y, above = above' ++ [y] := by
    rcases List.eq_nil_or_concat above with rfl | ⟨above', y, hconcat⟩
    · rw [hparts, List.nil_append] at hbranch
      exact absurd hbranch.head hxne
    · exact ⟨above', y, by rw [hconcat, List.concat_eq_append]⟩
  have hymarked : y ∈ bad :: rest := by
    rw [← List.mem_reverse, hmarked]
    simp
  have hlinks : Links s₁.blockData fork.hash (above' ++ y ::
      (x :: (below ++ (up.map Block.getHash).reverse))) := by
    have hlist := hbranch.links
    rw [hparts] at hlist
    simpa using hlist
  have hmem : ∀ z ∈ bad :: rest, z ∈ newBranch := fun z hz => by
    rw [hnew]
    exact List.mem_append_left _ (List.mem_reverse.mpr hz)
  have hstands : StandsOn s₁.blockData x y :=
    ⟨fun heq => hgen (heq ▸ hmem y hymarked), hlinks.entry above'⟩
  have hdescends : ∀ z ∈ bad :: rest, z ≠ b.getHash →
      Relation.TransGen (StandsOn s₁.blockData) z b.getHash := by
    intro z hz hzne
    obtain ⟨tip, tail, hcons⟩ : ∃ tip tail, newBranch = tip :: tail :=
      List.exists_cons_of_ne_nil (List.ne_nil_of_mem (hmem z hz))
    have hhead := hbranch.head
    rw [hcons] at hhead hgen
    obtain rfl : tip = b.getHash := hhead
    refine Links.descends (hcons ▸ hbranch.links) hgen ?_
    have hzmem := hmem z hz
    rw [hcons] at hzmem
    exact (List.mem_cons.mp hzmem).resolve_left hzne
  have hyfree : y ∉ s.invalidBlocks := by
    intro hy
    by_cases heq : y = b.getHash
    · exact hst.notInvalid (heq ▸ hy)
    · have hbad := hclosed₁.descends (hstored.invalid ▸ hy) (hdescends y hymarked heq)
      rw [hstored.invalid] at hbad
      exact hst.notInvalid hbad
  have hxoff : s.isOnActiveChain x = false := by
    rw [← Bool.not_eq_true, isOnActiveChain_iff hinv.toFollows,
      ← isOnActiveChain_iff hinv₁.toFollows, hbranch.off x (hmem x hx)]
    simp
  have hxgen : x ≠ getGenesisHash := fun heq => hgen (heq ▸ hmem x hx)
  have hone := hsole parent hst hwork x hxoff hxgen
    (hst.ancestors hinv hstored (hdescends x hx hxne))
  rw [hstored.invalid] at hold
  suffices heq : d = y from heq ▸ hymarked
  rcases hstored.standsOn hd with ⟨hdb, hxb⟩ | hd
  · rcases hstored.standsOn hstands with ⟨hyb, -⟩ | hy
    · exact hdb.trans hyb.symm
    · exact absurd hxb (hone y hy hyfree).1
  · rcases hstored.standsOn hstands with ⟨-, hxb⟩ | hy
    · exact absurd hxb (hone d hd hold).1
    · exact (hone y hy hyfree).2 d hd hold

theorem Closed.acceptBlock {s : ChainState} {p : List Block} (h : Closed s) (hinv : Inv s p) {now : UInt64}
    {b : Block} (hsole : SoleBranch s now b) : Closed (s.acceptBlock noFaults now b).1 := by
  rcases acceptBlock_cases noFaults s now b with ⟨hsame, -⟩ | ⟨parent, hcons, -, hrun⟩ | ⟨parent, hst, hrun⟩
  · rw [hsame]
    exact h
  · -- a block that is not stored has no stored descendants
    rw [hrun]
    refine ⟨fun x hx d hd => ?_⟩
    rw [mem_mark] at hx ⊢
    rcases hx with hx | hx
    · have hparent := StandsOn.parent hinv.store hd
      rw [List.mem_singleton.mp hx] at hparent
      exact absurd hparent (by simp [show s.blockData.hasBlock b.getHash = false from hcons.new])
    · exact .inr (h.child x hx d hd)
  · have hafter := hinv.storeAndActivate hst
    rw [← hrun] at hafter
    cases hafter with
    | side hstored hinv' hwork => exact h.stored hst hstored
    | tip hstored hinv₁ hwork hattempt hup hinv' hstep => exact (h.stored hst hstored).step hstep
    | refused hstored hinv₁ hwork hsuffix hinv' hstep hback hfailed =>
      exact (h.failed hinv hst hstored hinv₁ hwork hsole hfailed).step hstep

/-- **When the marks are closed under descent.**  After every run of calls that each find no second branch
growing out of the ancestors of their block: a stored block with an ancestor in `mInvalidBlocks` is in
`mInvalidBlocks`. -/
theorem invalidBlocks_closed (calls : List (UInt64 × Block)) (hcalls : EveryCall SoleBranch calls)
    {b d : Bytes32} (hb : b ∈ (acceptAll fresh.1 calls).invalidBlocks)
    (hd : Relation.TransGen (StandsOn (acceptAll fresh.1 calls).blockData) b d) :
    d ∈ (acceptAll fresh.1 calls).invalidBlocks := by
  have hclosed : Closed (acceptAll fresh.1 calls) := by
    refine EveryCall.run (Q := Closed) (Closed.of_empty index_fresh.2) ?_ calls hcalls
    intro s now block hreach h hsole
    obtain ⟨p, hinv⟩ := hreach.inv
    exact h.acceptBlock hinv hsole
  exact hclosed.descends hb hd

end Runs

/-! ## 4. A branch that is refused -/

/-- A branch without blocks ends on the active chain, where no block of a branch is. -/
theorem BranchTo.unique_nil {s : ChainState} {newTip : Bytes32} {l : List Bytes32} {fork fork' : Fork}
    (h : BranchTo s newTip [] fork) (h' : BranchTo s newTip l fork') : l = [] := by
  cases fork with
  | genesis => exact absurd rfl (h.ne_nil rfl)
  | block hash =>
    obtain rfl : hash = newTip := h.head
    cases l with
    | nil => rfl
    | cons x l =>
      obtain rfl : x = hash := h'.head
      have hoff := h'.off x (List.mem_cons_self ..)
      rw [h.on x rfl] at hoff
      cases hoff

/-- The rest of a branch is the branch of the next block, unless that is genesis. -/
theorem BranchTo.tail {s : ChainState} {newTip x : Bytes32} {l : List Bytes32} {fork : Fork}
    (h : BranchTo s newTip (x :: l) fork) (hne : newTip ≠ getGenesisHash) :
    ∃ e, s.blockData.readBlockIndex newTip = some e ∧ e.hashPrev = l.headD fork.hash ∧
      (e.hashPrev = getGenesisHash → l = []) ∧
      (e.hashPrev ≠ getGenesisHash → BranchTo s e.hashPrev l fork) := by
  obtain rfl : x = newTip := h.head
  obtain ⟨⟨e, he, hprev⟩, hrest⟩ := h.links
  have habove : getGenesisHash ∉ l := fun hmem => h.above hne (List.mem_cons_of_mem _ hmem)
  refine ⟨e, he, hprev, fun hgen => ?_, fun hgen => ⟨hprev.symm, hrest,
    fun hash hmem => h.off hash (List.mem_cons_of_mem _ hmem), h.on, ?_, fun _ => habove⟩⟩
  · cases l with
    | nil => rfl
    | cons y l =>
      rw [hgen] at hprev
      exact absurd (hprev ▸ List.mem_cons_self ..) habove
  · rintro rfl rfl
    exact hgen hprev

theorem BranchTo.unique {s : ChainState} : ∀ {newBranch newBranch' : List Bytes32} {newTip : Bytes32}
    {fork fork' : Fork}, BranchTo s newTip newBranch fork → BranchTo s newTip newBranch' fork' →
      newTip ≠ getGenesisHash → newBranch = newBranch' ∧ fork.hash = fork'.hash
  | [], l', newTip, fork, fork', h, h', _ => by
    obtain rfl := h.unique_nil h'
    exact ⟨rfl, h.head.trans h'.head.symm⟩
  | x :: l, [], newTip, fork, fork', h, h', _ => nomatch h'.unique_nil h
  | x :: l, y :: l', newTip, fork, fork', h, h', hne => by
    obtain ⟨e, he, hprev, hnone, hsome⟩ := h.tail hne
    obtain ⟨e', he', hprev', hnone', hsome'⟩ := h'.tail hne
    obtain rfl : e = e' := Option.some.inj (he.symm.trans he')
    have hhead : x = y := h.head.trans h'.head.symm
    by_cases hgen : e.hashPrev = getGenesisHash
    · obtain rfl := hnone hgen
      obtain rfl := hnone' hgen
      exact ⟨by rw [hhead], hprev.symm.trans hprev'⟩
    · obtain ⟨hrest, hfork⟩ := (hsome hgen).unique (hsome' hgen) hgen
      exact ⟨by rw [hhead, hrest], hfork⟩

/-- **The branch of a path that leaves the active chain at genesis.** -/
theorem branchTo_of_path {s : ChainState} : ∀ {l : List Block} {b : Block},
    IsPath s.blockData (b :: l ++ [buildGenesisBlock]) →
      (∀ c ∈ b :: l, s.isOnActiveChain c.getHash = false ∧ c.getHash ≠ getGenesisHash) →
      BranchTo s b.getHash ((b :: l).map Block.getHash) .genesis
  | [], b, hpath, hoff => by
    obtain ⟨pos, hentry⟩ := readBlockIndex_path hpath
    cases hpath with
    | cons hp hprev =>
      refine ⟨rfl, ⟨⟨_, hentry, hprev.trans buildGenesisBlock_getHash⟩, trivial⟩, ?_, by simp,
        by simp, ?_⟩
      · simpa using (hoff b (List.mem_singleton_self _)).1
      · exact fun hne hmem => hne (List.mem_singleton.mp hmem).symm
  | c :: l, b, hpath, hoff => by
    obtain ⟨pos, hentry⟩ := readBlockIndex_path hpath
    have hb := hoff b (List.mem_cons_self ..)
    cases hpath with
    | cons hp hprev =>
      have hbelow := branchTo_of_path hp fun d hd => hoff d (List.mem_cons_of_mem _ hd)
      rw [← hprev] at hbelow
      refine BranchTo.push hbelow hentry hb.1 ?_
      show b.header.prevBlockHash ≠ getGenesisHash
      rw [hprev]
      exact (hoff c (by simp)).2

theorem Attempt.head {s : ChainState} {p pre q up : List Block} {newTip : Bytes32}
    {newBranch : List Bytes32} (h : Attempt s p newTip newBranch pre q)
    (hup : up.map Block.getHash = newBranch.reverse) :
    ∃ b r, up.reverse ++ q = b :: r ∧ b.getHash = newTip := by
  obtain ⟨fork, hbranch, hq⟩ := h.branch
  have hlist : (up.reverse.map Block.getHash) = newBranch := by
    rw [List.map_reverse, hup, List.reverse_reverse]
  have hhead := hbranch.head
  rw [← hlist] at hhead
  cases hrev : up.reverse with
  | nil =>
    rw [hrev] at hhead
    cases q with
    | nil => simp at hq
    | cons b r => exact ⟨b, r, rfl, (Option.some.inj hq).trans hhead⟩
  | cons b r =>
    rw [hrev] at hhead
    exact ⟨b, r ++ q, rfl, hhead⟩

theorem BlockData.StoreInv.ne_genesis {bd : BlockData} (h : StoreInv bd) {b : Block} {l : List Block}
    (hpath : IsPath bd (b :: l)) (hl : l ≠ []) : b.getHash ≠ getGenesisHash := by
  intro heq
  obtain ⟨-, hlen⟩ := hpath.stored.unique h.genesis (heq.trans buildGenesisBlock_getHash.symm)
  exact hl (List.length_eq_zero_iff.mp hlen)

/-- A chain on top of the genesis hash is a chain on top of the genesis block. -/
theorem Inv.genesis_of_head {s : ChainState} {up q : List Block} (h : Inv s (up ++ q))
    (hq : q.head?.map Block.getHash = some getGenesisHash) : q = [buildGenesisBlock] := by
  cases q with
  | nil => simp at hq
  | cons g r =>
    have hsuf : IsPath s.blockData (g :: r) :=
      isPath_of_suffix h.path (List.suffix_append _ _) (by simp)
    exact hsuf.unique (.genesis h.store.genesis)
      ((Option.some.inj hq).trans buildGenesisBlock_getHash.symm)

section Refused

variable [Ed25519]

/-- An attempt on the branch `l`, tip first, from genesis whose first block `d` cannot be connected stops at
that block and marks the whole branch. -/
theorem Failed.marks_branch {s : ChainState} {p l : List Block} {b d : Block} {marked : List Bytes32}
    (h : Failed s p b.getHash marked) (hinv : Inv s p)
    (hpath : IsPath s.blockData (b :: l ++ [d, buildGenesisBlock]))
    (hoff : ∀ x ∈ b :: (l ++ [d]), s.isOnActiveChain x.getHash = false)
    (hbad : ¬ Connects [buildGenesisBlock] d)
    (hverdict : ∀ u what, BlockValidation.checkBlockTransactionsWithUTXO d u 1 ≠ .error (.threw what)) :
    marked = d.getHash :: (b :: l).reverse.map Block.getHash := by
  have habove : ∀ x ∈ b :: (l ++ [d]), x.getHash ≠ getGenesisHash := by
    intro x hx
    obtain ⟨above, below, hsplit⟩ := List.append_of_mem hx
    have hlow : IsPath s.blockData (x :: (below ++ [buildGenesisBlock])) := by
      refine isPath_of_suffix hpath ⟨above, ?_⟩ (by simp)
      rw [← List.cons_append, ← List.append_assoc, ← hsplit]
      simp
    exact hinv.store.ne_genesis hlow (by simp)
  have hbne := habove b (List.mem_cons_self ..)
  have hbranch : BranchTo s b.getHash ((b :: (l ++ [d])).map Block.getHash) .genesis :=
    branchTo_of_path (by simpa using hpath) fun x hx => ⟨hoff x hx, habove x hx⟩
  rcases h with ⟨-, hmissing⟩ | ⟨newBranch, pre, q, up, bad, rest, s₂, hattempt, hsplit, hinv₂, hstep₂,
    hstop⟩
  · obtain ⟨pos, hentry⟩ := readBlockIndex_path hpath
    obtain ⟨_, _, hfound, -⟩ := findBranch_found hinv.store
      (s.indexHeight b.getHash + s.indexHeight FixedBytes.zero + 2) hentry hbne (by
        have hheight := indexHeight_eq hentry
        omega)
    rw [hmissing] at hfound
    cases hfound
  · obtain ⟨fork, hbranch', hq⟩ := hattempt.branch
    obtain ⟨hsame, hfork⟩ := hbranch'.unique hbranch hbne
    have hrev : up.map Block.getHash ++ bad :: rest =
        d.getHash :: (b :: l).reverse.map Block.getHash := by
      rw [← hsplit, hsame]
      simp
    obtain rfl := hinv₂.genesis_of_head (hq.trans (congrArg some hfork))
    have hdpath : IsPath s₂.blockData [d, buildGenesisBlock] :=
      (isPath_of_suffix hpath (List.suffix_append (b :: l) _) (by simp)).mono hstep₂.keeps
    cases up with
    | cons u up =>
      -- the first block would have been connected
      have hsuf : u :: [buildGenesisBlock] <:+ (u :: up).reverse ++ [buildGenesisBlock] := by
        rw [List.reverse_cons, List.append_assoc]
        exact List.suffix_append _ _
      have heq := (isPath_of_suffix hinv₂.path hsuf (by simp)).unique hdpath (List.cons.inj hrev).1
      rw [heq] at hsuf
      exact absurd (hinv₂.valid.suffix hsuf (by simp)).connects hbad
    | nil =>
      have hbadhash : bad = d.getHash := (List.cons.inj hrev).1
      rcases hstop with ⟨rfl, -⟩ | ⟨-, hnone | ⟨x, what, hload, hthrew⟩⟩
      · exact hrev
      · rw [hbadhash, loadBlock_path hdpath] at hnone
        cases hnone
      · rw [hbadhash, loadBlock_path hdpath] at hload
        cases hload
        exact absurd hthrew (hverdict _ _)

/-- **A branch from genesis whose first block `d` cannot be connected is marked as a whole** when a block on
it has more work than the tip. -/
theorem AfterStore.marks_branch {s s' : ChainState} {p l r : List Block} {b c d : Block} {now : UInt64}
    {parent : BlockIndexEntry} (hafter : AfterStore s p b parent s') (hinv : Inv s p)
    (hst : Storable s now b parent) (hread : (Block.deserialize b.serialize).toOption.isSome = true)
    (hcr : c :: r = l ++ [d, buildGenesisBlock]) (hpath : IsPath s.blockData (c :: r))
    (hprev : b.header.prevBlockHash = c.getHash)
    (hmore : compareWork (addChainWork parent.nChainWork b.header.bits) s.bestChain.chainWork = .gt)
    (hoff : ∀ x ∈ l ++ [d], s.isOnActiveChain x.getHash = false)
    (hbad : ¬ Connects [buildGenesisBlock] d)
    (hverdict : ∀ u what, BlockValidation.checkBlockTransactionsWithUTXO d u 1 ≠ .error (.threw what)) :
    ∃ s₁, StoredFrom s b parent s₁ ∧
      StepFrom (s₁.mark (d.getHash :: (b :: l).reverse.map Block.getHash)) s' := by
  have hne : b ≠ buildGenesisBlock := by
    rintro rfl
    exact hst.ne_genesis hinv buildGenesisBlock_getHash
  have hpath₁ : ∀ {s₁ : ChainState}, StoredFrom s b parent s₁ → Inv s₁ p →
      IsPath s₁.blockData (b :: l ++ [d, buildGenesisBlock]) := by
    intro s₁ hstored hinv₁
    rw [List.cons_append, ← hcr]
    exact hstored.isPath hinv₁.store hpath hprev hne hread
  cases hafter with
  | side hstored hinv' hwork => exact absurd hmore hwork
  | tip hstored hinv₁ hwork hattempt hup hinv' hstep =>
    -- the new chain would be the path of the block, which is not valid
    obtain ⟨x, r', hchain, hx⟩ := hattempt.head hup
    rw [hchain] at hinv'
    have hv := hinv'.valid
    rw [hinv'.path.unique ((hpath₁ hstored hinv₁).mono hstep.keeps) hx] at hv
    exact absurd (hv.suffix (List.suffix_append (b :: l) _) (by simp)).connects hbad
  | refused hstored hinv₁ hwork hsuffix hinv' hstep hback hfailed =>
    refine ⟨_, hstored, ?_⟩
    rw [hfailed.marks_branch hinv₁ (hpath₁ hstored hinv₁) ?_ hbad hverdict] at hstep
    · exact hstep
    · intro x hx
      rcases List.mem_cons.mp hx with rfl | hx
      · exact hinv.not_onActive hinv₁ hst.new
      · rw [← hoff x hx, Bool.eq_iff_iff, isOnActiveChain_iff hinv₁.toFollows,
          isOnActiveChain_iff hinv.toFollows]

end Refused

/-! ## 5. A branch with two ends -/

theorem Next.mono {known known' : List Block} {c b : Block} {tx : Transaction} {now : UInt64}
    (h : Next known c b tx now) (hsub : known' ⊆ known) (hparent : c ∈ known') : Next known' c b tx now :=
  { h with
    parent := hparent
    new := fun hmem => h.new (List.map_subset _ hsub hmem) }

theorem Knows.standsOn {s : ChainState} {q : Block} {p known : List Block} (h : Knows s q p known)
    {x d : Bytes32} (hd : StandsOn s.blockData x d) :
    ∃ b ∈ known, b.getHash = d ∧ b.header.prevBlockHash = x := by
  obtain ⟨-, e, he, rfl⟩ := hd
  have hhas : s.blockData.hasBlock d = true := by
    rw [hasBlock, he]
    rfl
  obtain ⟨b, hb, rfl⟩ := List.mem_map.mp (h.index d hhas)
  obtain ⟨e', he', hentry⟩ := h.entries b hb
  rw [he] at he'
  cases he'
  exact ⟨b, hb, rfl, hentry.prev.symm⟩

theorem eq_genesis_of_above {bd : BlockData} {x : Bytes32}
    (h : Relation.ReflTransGen (StandsOn bd) x getGenesisHash) : x = getGenesisHash := by
  cases h with
  | refl => rfl
  | tail _ hlast => exact absurd rfl hlast.1

theorem soleBranch_of_genesis [Ed25519] {s : ChainState} {now : UInt64} {b : Block}
    (h : b.header.prevBlockHash = getGenesisHash) : SoleBranch s now b := by
  intro parent _ _ x _ hx habove
  rw [h] at habove
  exact absurd (eq_genesis_of_above habove) hx

theorem next_b1_genesis :
    Next [buildGenesisBlock] buildGenesisBlock b1 (coinbaseTo 7700000000 2 []) 1786725267 :=
  next_b1.mono (by simp) (List.mem_singleton_self _)

theorem next_b2 : Next [b1, buildGenesisBlock] b1 b2 (coinbaseTo 7700000000 3 []) 1786726268 :=
  samples.b2.solo.next (List.mem_cons_self ..) samples.b1.getHash.symm rfl samples.b2.getHash
    (.cons samples.b1.getHash (.cons buildGenesisBlock_getHash .nil))
    (by decide)

theorem next_d1 : Next [b2, b1, buildGenesisBlock] buildGenesisBlock d1 (coinbaseTo 7700000001 4 [])
    1786725267 :=
  samples.d1.solo.next (by simp) buildGenesisBlock_getHash.symm rfl samples.d1.getHash
    (.cons samples.b2.getHash (.cons samples.b1.getHash (.cons buildGenesisBlock_getHash .nil)))
    (by decide)

theorem next_d2 : Next [d1, b2, b1, buildGenesisBlock] d1 d2 (coinbaseTo 7700000000 5 [])
    1786726268 :=
  samples.d2.solo.next (by simp) samples.d1.getHash.symm rfl samples.d2.getHash
    (.cons samples.d1.getHash (.cons samples.b2.getHash (.cons samples.b1.getHash (.cons buildGenesisBlock_getHash .nil))))
    (by decide)

theorem next_x2 : Next [d2, d1, b2, b1, buildGenesisBlock] d1 x2 (coinbaseTo 7700000000 1 [])
    1786726269 :=
  samples.x2.solo.next
    (by simp) samples.d1.getHash.symm rfl samples.x2.getHash
    (.cons samples.d2.getHash (.cons samples.d1.getHash (.cons samples.b2.getHash (.cons samples.b1.getHash
      (.cons buildGenesisBlock_getHash .nil)))))
    (by decide)

theorem next_d3 : Next [x2, d2, d1, b2, b1, buildGenesisBlock] d2 d3 (coinbaseTo 7700000000 1 [])
    1786727268 :=
  samples.d3.solo.next
    (by simp) samples.d2.getHash.symm rfl samples.d3.getHash
    (.cons samples.x2.getHash (.cons samples.d2.getHash (.cons samples.d1.getHash (.cons samples.b2.getHash (.cons samples.b1.getHash
      (.cons buildGenesisBlock_getHash .nil))))))
    (by decide)

theorem not_connects_d1 : ¬ Connects [buildGenesisBlock] d1 := by
  intro h
  obtain ⟨coinbase, rest, spents, hshape, hacc⟩ := h.accepted
  have htxs : d1.transactions = [coinbaseTo 7700000001 4 []] := rfl
  rw [hshape.transactions] at htxs
  cases htxs
  have hreward := hacc.reward
  have hvalue : (coinbaseTo 7700000001 4 []).valueOut = 7700000001 := by decide
  have hallowed : ((getBlockSubsidy (UInt32.ofNat [buildGenesisBlock].length).toUInt64).toNat : Int) +
      (if UInt32.ofNat [buildGenesisBlock].length < FEES_TO_MINER_HEIGHT then 0
        else feesOf [] spents) = 7700000000 := by
    rw [if_pos (by decide)]
    decide
  omega

theorem verdict_d1 [Ed25519] (u : UTXOSet) (what : String) :
    BlockValidation.checkBlockTransactionsWithUTXO d1 u 1 ≠ .error (.threw what) := by
  have htxs : d1.transactions = [coinbaseTo 7700000001 4 []] := rfl
  rw [BlockValidation.checkBlockTransactionsWithUTXO_coinbase htxs]
  have hinvalid : (match BlockValidation.checkCoinbaseValue (coinbaseTo 7700000001 4 []) 1 0 with
      | .error (.threw _) => true
      | _ => false) = false := by decide
  intro heq
  rw [heq] at hinvalid
  cases hinvalid

section Samples

variable [Ed25519] {s : ChainState} {q : Block} {p known : List Block}

/-- **A block with more work above `d1` lets its whole branch be marked.** -/
theorem Knows.marks_branch (h : Knows s q p known) {b c : Block} {l r : List Block} {tx : Transaction}
    {now : UInt64} (hb : Next known c b tx now)
    (hread : (Block.deserialize b.serialize).toOption.isSome = true)
    (hcr : c :: r = l ++ [d1, buildGenesisBlock]) (hpath : IsPath s.blockData (c :: r))
    (hoff : ∀ x ∈ l ++ [d1], x.getHash ∉ (q :: p).map Block.getHash)
    (hhigh : p.length ≤ c.header.height.toNat ∧ c.header.height.toNat < DIFFICULTY_ADJUSTMENT_INTERVAL) :
    (∀ x, x ∈ (s.acceptBlock noFaults now b).1.invalidBlocks ↔
        x ∈ d1.getHash :: (b :: l).reverse.map Block.getHash) ∧
      Keeps s.blockData (s.acceptBlock noFaults now b).1.blockData ∧
      StandsOn (s.acceptBlock noFaults now b).1.blockData c.getHash b.getHash := by
  obtain ⟨e, he, hentry⟩ := h.entries c hb.parent
  have hc : c ∈ l ++ [d1] := by
    cases l with
    | nil => cases hcr; exact List.mem_singleton_self _
    | cons x l => cases hcr; exact List.mem_cons_self ..
  have hne : ¬ b.header.prevBlockHash = s.bestChain.blockHash := by
    rw [hb.prev, h.toFollows.tip_hash]
    intro heq
    refine hoff c hc ?_
    rw [heq]
    exact List.mem_cons_self ..
  have hst : Storable s now b e := h.storable hb.on he hentry fun htip => absurd htip hne
  have hmore : compareWork (addChainWork e.nChainWork b.header.bits) s.bestChain.chainWork = .gt := by
    have hheight := hentry.height
    simp only [DIFFICULTY_ADJUSTMENT_INTERVAL] at hhigh
    rw [compareWork_gt, workValue_addChainWork, hb.bits, workValue_minWork, h.tip_work.2, hentry.work,
      minWork]
    omega
  have hafter := h.toInv.storeAndActivate hst
  rw [← hst.acceptBlock_eq] at hafter
  obtain ⟨s₁, hstored, hstep⟩ := hafter.marks_branch h.toInv hst hread hcr hpath hb.prev hmore (by
    intro x hx
    rw [← Bool.not_eq_true, isOnActiveChain_iff h.toFollows]
    exact fun hmem => hoff x hx (List.map_subset _ (List.dropLast_subset _) hmem))
    not_connects_d1 verdict_d1
  obtain ⟨pos, hnew, -⟩ := hstored.entry
  refine ⟨fun x => ?_, hstored.keeps.trans hstep.keeps, ?_⟩
  · rw [hstep.invalid, mem_mark, hstored.invalid, h.unmarked]
    simp
  · have hstands : StandsOn s₁.blockData c.getHash b.getHash := ⟨hst.ne_genesis h.toInv, _, hnew, hb.prev⟩
    exact hstands.mono hstep.keeps

end Samples

theorem extend_b1 : Knows (@acceptBlock noSignatures noFaults fresh.1 1786725267 b1).1 b1
    [buildGenesisBlock] [b1, buildGenesisBlock] :=
  (@Knows.extend _ _ _ _ noSignatures knows_fresh _ _ _ next_b1_genesis (by decide) (by decide)
    (eq_ok_of_isOk (by decide)) samples.b1.reads).2.1

theorem d1_ne_genesis : d1 ≠ buildGenesisBlock := by
  intro heq
  have hheight : d1.header.height = 1 := rfl
  rw [heq] at hheight
  exact absurd hheight (by decide)

theorem aside_d1 {s : ChainState} {q : Block} {p known : List Block} (h : Knows s q p known)
    (hnext : Next known buildGenesisBlock d1 (coinbaseTo 7700000001 4 []) 1786725267)
    (hoff : buildGenesisBlock.getHash ≠ q.getHash) (hlow : 1 ≤ p.length)
    (hshort : p.length < DIFFICULTY_ADJUSTMENT_INTERVAL) :
    Knows (@acceptBlock noSignatures noFaults s 1786725267 d1).1 q p (d1 :: known) ∧
      IsPath (@acceptBlock noSignatures noFaults s 1786725267 d1).1.blockData
        [d1, buildGenesisBlock] := by
  obtain ⟨hknows, e, -, hstored⟩ := @Knows.aside _ _ _ _ noSignatures h _ _ _ _ hnext hoff hlow hshort
  refine ⟨hknows, hstored.isPath hknows.store (.genesis h.store.genesis) hnext.prev d1_ne_genesis
    samples.d1.reads⟩

theorem next_d1_b1 :
    Next [b1, buildGenesisBlock] buildGenesisBlock d1 (coinbaseTo 7700000001 4 []) 1786725267 :=
  next_d1.mono (List.subset_cons_self _ _) (List.mem_cons_of_mem _ (List.mem_singleton_self _))

theorem next_d2_b1 :
    Next [d1, b1, buildGenesisBlock] d1 d2 (coinbaseTo 7700000000 5 []) 1786726268 :=
  next_d2.mono (List.cons_subset_cons _ (List.subset_cons_self _ _)) (List.mem_cons_self ..)

theorem soleBranch_d2 [Ed25519] {s : ChainState} {now : UInt64}
    (h : Knows s b1 [buildGenesisBlock] [d1, b1, buildGenesisBlock]) : SoleBranch s now d2 := by
  have hprev : ∀ b ∈ [d1, b1, buildGenesisBlock], b.header.prevBlockHash ≠ d1.getHash := by
    rw [samples.d1.getHash]
    decide
  have hparent : ∀ {x : Bytes32}, StandsOn s.blockData x d1.getHash → x = getGenesisHash := by
    intro x hx
    obtain ⟨b, hb, hhash, rfl⟩ := h.standsOn hx
    simp only [List.mem_cons, List.not_mem_nil, or_false] at hb
    rcases hb with rfl | rfl | rfl
    · rfl
    · rfl
    · rw [buildGenesisBlock_getHash, samples.d1.getHash] at hhash
      exact absurd hhash (by decide)
  intro parent _ _ x _ hx habove d hd
  have hd2 : d2.header.prevBlockHash = d1.getHash := samples.d1.getHash.symm
  rw [hd2] at habove
  have hxd1 : x = d1.getHash := by
    cases habove with
    | refl => rfl
    | tail hbelow hlast =>
      rw [hparent hlast] at hbelow
      exact absurd (eq_genesis_of_above hbelow) hx
  obtain ⟨b, hb, -, hxb⟩ := h.standsOn hd
  exact absurd (hxb.trans hxd1) (hprev b hb)

/-- A run in which the block `d1` is marked, with the block `d2` on top of it. -/
theorem marks_d2 : ∃ calls, calls = [(1786725267, b1), (1786725267, d1), (1786726268, d2)] ∧
    @EveryCall noSignatures (@SoleBranch noSignatures) calls ∧
    d1.getHash ∈ (@acceptAll noSignatures fresh.1 calls).invalidBlocks ∧
    StandsOn (@acceptAll noSignatures fresh.1 calls).blockData d1.getHash d2.getHash := by
  refine ⟨_, rfl, ?_⟩
  obtain ⟨h₂, hpath⟩ := aside_d1 extend_b1 next_d1_b1 (by
    rw [samples.b1.getHash, buildGenesisBlock_getHash]
    decide) (by decide) (by decide)
  have hcalls : ∀ s, s = (@acceptBlock noSignatures noFaults
      (@acceptBlock noSignatures noFaults fresh.1 1786725267 b1).1 1786725267 d1).1 →
      @SoleBranch noSignatures s 1786726268 d2 → @EveryCall noSignatures (@SoleBranch noSignatures)
        [(1786725267, b1), (1786725267, d1), (1786726268, d2)] := by
    intro s hs hsole before now block after heq
    rcases before with - | ⟨c₁, - | ⟨c₂, - | ⟨c₃, before⟩⟩⟩
    · cases heq
      exact @soleBranch_of_genesis noSignatures _ _ _ rfl
    · cases heq
      exact @soleBranch_of_genesis noSignatures _ _ _ rfl
    · cases heq
      rw [@acceptAll_cons noSignatures, @acceptAll_cons noSignatures, @acceptAll_nil noSignatures, ← hs]
      exact hsole
    · simp at heq
  rw [@acceptAll_cons noSignatures, @acceptAll_cons noSignatures, @acceptAll_cons noSignatures,
    @acceptAll_nil noSignatures]
  generalize (@acceptBlock noSignatures noFaults
    (@acceptBlock noSignatures noFaults fresh.1 1786725267 b1).1 1786725267 d1).1 = s
    at h₂ hpath hcalls ⊢
  obtain ⟨hmarks, -, hstands⟩ := @Knows.marks_branch noSignatures _ _ _ _ h₂ _ _ [] _ _ _ next_d2_b1
    samples.d2.reads rfl hpath (by
      intro x hx
      rw [List.mem_singleton.mp hx, List.map_cons, List.map_singleton, samples.d1.getHash,
        samples.b1.getHash, buildGenesisBlock_getHash]
      decide) (by decide)
  exact ⟨hcalls s rfl (@soleBranch_d2 noSignatures _ _ h₂),
    (hmarks d1.getHash).mpr (List.mem_cons_self ..), hstands⟩

/-- After `b1`, `d1` and `d2` the block `d1` is marked, and so is `d2` on top of it. -/
theorem invalidBlocks_closed_d2 :
    ∃ calls, calls = [(1786725267, b1), (1786725267, d1), (1786726268, d2)] ∧
      d1.getHash ∈ (@acceptAll noSignatures fresh.1 calls).invalidBlocks ∧
      d2.getHash ∈ (@acceptAll noSignatures fresh.1 calls).invalidBlocks := by
  obtain ⟨calls, heq, hcalls, hmem, hstands⟩ := marks_d2
  exact ⟨calls, heq, hmem, @invalidBlocks_closed noSignatures calls hcalls _ _ hmem (.single hstands)⟩

/-- The node is on `b1` and `b2` and has the branch of `d1` next to it, with the two ends `d2` and `x2`. -/
theorem two_ends : ∃ s : ChainState, s = @acceptAll noSignatures fresh.1
      [(1786725267, b1), (1786726268, b2), (1786725267, d1), (1786726268, d2), (1786726269, x2)] ∧
    Knows s b2 [b1, buildGenesisBlock] [x2, d2, d1, b2, b1, buildGenesisBlock] ∧
    IsPath s.blockData [d2, d1, buildGenesisBlock] ∧ StandsOn s.blockData d1.getHash x2.getHash := by
  have h₁ := extend_b1
  rw [@acceptAll_cons noSignatures]
  generalize (@acceptBlock noSignatures noFaults fresh.1 1786725267 b1).1 = s₁ at h₁ ⊢
  have h₂ := (@Knows.extend _ _ _ _ noSignatures h₁ _ _ _ next_b2 (by decide) (by decide)
    (eq_ok_of_isOk (by decide)) samples.b2.reads).2.1
  rw [@acceptAll_cons noSignatures]
  generalize (@acceptBlock noSignatures noFaults s₁ 1786726268 b2).1 = s₂ at h₂ ⊢
  have hb2 : b2.getHash ∉ [buildGenesisBlock.getHash, d1.getHash] := by
    rw [samples.b2.getHash, samples.d1.getHash, buildGenesisBlock_getHash]
    decide
  simp only [List.mem_cons, List.not_mem_nil, or_false, not_or] at hb2
  obtain ⟨h₃, hpath₃⟩ := aside_d1 h₂ next_d1 (Ne.symm hb2.1) (by decide) (by decide)
  rw [@acceptAll_cons noSignatures]
  generalize (@acceptBlock noSignatures noFaults s₂ 1786725267 d1).1 = s₃ at h₃ hpath₃ ⊢
  obtain ⟨h₄, e₄, -, hstored₄⟩ := @Knows.aside _ _ _ _ noSignatures h₃ _ _ _ _ next_d2 (Ne.symm hb2.2)
    (by decide) (by decide)
  rw [@acceptAll_cons noSignatures]
  generalize (@acceptBlock noSignatures noFaults s₃ 1786726268 d2).1 = s₄ at h₄ hstored₄ ⊢
  have hpath₄ : IsPath s₄.blockData [d2, d1, buildGenesisBlock] := by
    refine hstored₄.isPath h₄.store hpath₃ next_d2.prev ?_ samples.d2.reads
    intro heq
    have hheight : d2.header.height = 2 := rfl
    rw [heq] at hheight
    exact absurd hheight (by decide)
  obtain ⟨h₅, e₅, -, hstored₅⟩ := @Knows.aside _ _ _ _ noSignatures h₄ _ _ _ _ next_x2 (Ne.symm hb2.2)
    (by decide) (by decide)
  rw [@acceptAll_cons noSignatures, @acceptAll_nil noSignatures]
  generalize (@acceptBlock noSignatures noFaults s₄ 1786726269 x2).1 = s₅ at h₅ hstored₅ ⊢
  obtain ⟨pos, hentry, -⟩ := hstored₅.entry
  refine ⟨s₅, rfl, h₅, hpath₄.mono hstored₅.keeps, ?_, _, hentry, next_x2.prev⟩
  rw [samples.x2.getHash]
  decide

/-- **A descendant is missed.**  The node is on `b1` and `b2` and has stored `d1`, which takes too much, with
`d2` and `x2` on top of it.  Then `d3` on `d2` has more work than the tip: its branch is tried, `d1` is
refused, and `d1`, `d2` and `d3` are marked.  `x2` is not, and `d1` is its parent. -/
theorem descendant_not_marked : ∃ calls,
    calls = [(1786725267, b1), (1786726268, b2), (1786725267, d1), (1786726268, d2), (1786726269, x2),
      (1786727268, d3)] ∧
    d1.getHash ∈ (@acceptAll noSignatures fresh.1 calls).invalidBlocks ∧
    Relation.TransGen (StandsOn (@acceptAll noSignatures fresh.1 calls).blockData)
      d1.getHash x2.getHash ∧
    x2.getHash ∉ (@acceptAll noSignatures fresh.1 calls).invalidBlocks := by
  obtain ⟨s, hs, hknows, hpath, hstands⟩ := two_ends
  refine ⟨_, rfl, ?_⟩
  have hrun : @acceptAll noSignatures fresh.1 [(1786725267, b1), (1786726268, b2), (1786725267, d1),
      (1786726268, d2), (1786726269, x2), (1786727268, d3)] =
      (@acceptBlock noSignatures noFaults s 1786727268 d3).1 := by
    rw [hs, ← @acceptAll_concat noSignatures]
    exact congrArg (@acceptAll noSignatures fresh.1) rfl
  rw [hrun]
  obtain ⟨hmarks, hkeeps, -⟩ := @Knows.marks_branch noSignatures _ _ _ _ hknows _ _ [d2] _ _ _ next_d3
    samples.d3.reads rfl hpath (by
      intro x hx
      have hx' : x.getHash ∈ [d2.getHash, d1.getHash] := List.mem_map.mpr ⟨x, hx, rfl⟩
      simp only [List.map_cons, List.map_nil]
      rw [samples.b2.getHash, samples.b1.getHash, buildGenesisBlock_getHash]
      rw [samples.d2.getHash, samples.d1.getHash] at hx'
      revert hx'
      generalize x.getHash = y
      intro hy
      rcases List.mem_cons.mp hy with rfl | hy
      · decide
      · rw [List.mem_singleton.mp hy]
        decide) (by decide)
  refine ⟨(hmarks _).mpr (List.mem_cons_self ..), .single (hstands.mono hkeeps), ?_⟩
  rw [hmarks]
  simp only [List.reverse_cons, List.reverse_nil, List.nil_append, List.map_cons,
    List.map_nil, List.cons_append]
  rw [samples.x2.getHash, samples.d1.getHash, samples.d2.getHash, samples.d3.getHash]
  decide

end Moneu
