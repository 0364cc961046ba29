/-
# The transaction index

`WriteBlock` lets the index name a block for each of its transactions as soon as the block is stored, on
whatever branch.  For a block that does not extend the tip, `AcceptBlock` writes back the entries that were
there before, but leaves the new ones; `DisconnectTip` does not touch the index at all.  So the index also
names blocks that are not on the active chain, and `GetTransaction` reports them.

The index names the active chain as long as every block that is stored goes on top of the tip, or brings no
transaction that the active chain does not have (`getTransaction_active`).
-/
import Moneu.Chain.RoundTrip

namespace Moneu

open NetParams Journal UTXOSet BlockData ChainState

/-! ## 1. What the index says -/

variable {p : List Block} {txid : Bytes32} {s : ChainState} {b : Block}

/-- The index of `s` names the blocks of the chain `p` and no others. -/
structure Indexed (s : ChainState) (p : List Block) : Prop where
  names : ∀ {txid : Bytes32} {b : Block} {q : List Block}, b :: q <:+ p → txid ∈ txids b →
    s.blockData.readTxIndex txid = some b.getHash
  only : ∀ {txid : Bytes32}, txid ∉ txidsOf p → s.blockData.readTxIndex txid = none

theorem mem_txidsOf :
    txid ∈ txidsOf p ↔ ∃ b q, b :: q <:+ p ∧ txid ∈ txids b := by
  constructor
  · intro h
    obtain ⟨b, hb, htxid⟩ := List.mem_flatMap.mp h
    obtain ⟨pre, q, rfl⟩ := List.append_of_mem hb
    exact ⟨b, q, List.suffix_append _ _, htxid⟩
  · rintro ⟨b, q, hsuf, htxid⟩
    exact List.mem_flatMap.mpr ⟨b, hsuf.mem (List.mem_cons_self ..), htxid⟩

/-- `GetTransaction` when the index names a stored block that has the transaction. -/
theorem getTransaction_of_path {below : List Block}
    (hindex : s.blockData.readTxIndex txid = some b.getHash) (hpath : IsPath s.blockData (b :: below))
    (hin : txid ∈ txids b) :
    ∃ tx ∈ b.transactions, tx.getHash = txid ∧
      s.getTransaction txid = some { tx, blockHash := b.getHash, height := below.length } := by
  obtain ⟨pos, hentry, hread⟩ := hpath.stored
  obtain ⟨tx, htx, hid⟩ := List.mem_map.mp hin
  obtain ⟨tx', hfind⟩ : ∃ tx', (b.transactions.find? fun t => t.getHash = txid) = some tx' :=
    Option.isSome_iff_exists.mp (List.find?_isSome.mpr ⟨tx, htx, by simpa using hid⟩)
  refine ⟨tx', List.mem_of_find?_eq_some hfind, by simpa using List.find?_some hfind, ?_⟩
  simp only [ChainState.getTransaction, hindex, hentry, indexEntry, hread, hfind, Option.map_some]

/-- **`GetTransaction` of a node whose index names its chain**: it finds the transactions of the chain, each
in its block. -/
theorem Indexed.getTransaction (h : Indexed s p) (hinv : Inv s p) (txid : Bytes32) :
    (s.getTransaction txid = none ∧ txid ∉ txidsOf p) ∨
      ∃ b q, ∃ tx ∈ b.transactions, b :: q <:+ p ∧ tx.getHash = txid ∧
        s.getTransaction txid = some { tx, blockHash := b.getHash, height := q.length } := by
  by_cases hmem : txid ∈ txidsOf p
  · obtain ⟨b, q, hsuf, htxid⟩ := mem_txidsOf.mp hmem
    obtain ⟨tx, htx, hid, hget⟩ := getTransaction_of_path (h.names hsuf htxid)
      (isPath_of_suffix hinv.path hsuf (by simp)) htxid
    exact .inr ⟨b, q, tx, htx, hsuf, hid, hget⟩
  · exact .inl ⟨by simp only [ChainState.getTransaction, h.only hmem], hmem⟩

theorem suffix_unique (h : (txidsOf p).Nodup) {b' : Block} {q q' : List Block} (hsuf : b :: q <:+ p)
    (htxid : txid ∈ txids b) (hsuf' : b' :: q' <:+ p) (htxid' : txid ∈ txids b') : b :: q = b' :: q' := by
  -- of two suffixes one is a suffix of the other, and if they differ the txid is below its own block
  have hbelow : ∀ {c c' : Block} {r r' : List Block}, c :: r <:+ p → c' :: r' <:+ c :: r →
      txid ∈ txids c → txid ∈ txids c' → c' :: r' = c :: r := by
    intro c c' r r' hr hr' hc hc'
    refine (List.suffix_cons_iff.mp hr').resolve_right fun hlow => ?_
    have hnodup : (txids c ++ txidsOf r).Nodup :=
      h.sublist (hr.sublist.flatMap _)
    exact (List.nodup_append'.mp hnodup).2.2 hc (mem_txidsOf.mpr ⟨c', r', hlow, hc'⟩)
  rcases List.suffix_or_suffix_of_suffix hsuf hsuf' with hle | hle
  · exact hbelow hsuf' hle htxid' htxid
  · exact (hbelow hsuf hle htxid htxid').symm

/-! ## 2. Steps that keep the index on the chain -/

/-- **A block that is connected on top of the tip.** -/
theorem Indexed.onTip {s₁ s' : ChainState} (h : Indexed s p) (hon : OnTip s p b s₁ s')
    (hdistinct : (txidsOf (b :: p)).Nodup) : Indexed s' (b :: p) := by
  obtain ⟨parent, -, hstored⟩ := hon.stored
  obtain ⟨spents, u, -, -, rfl⟩ := hon.connects
  have hnew : ∀ txid ∈ txids b, txid ∉ txidsOf p := fun txid htxid hold =>
    (List.nodup_append'.mp hdistinct).2.2 htxid hold
  have hread : ∀ txid, (s₁.connected b u ⟨spents.map TxUndo.mk⟩).blockData.readTxIndex txid =
      if txid ∈ txids b then some b.getHash else s.blockData.readTxIndex txid := by
    intro txid
    rw [readTxIndex, (connectedParts s₁ b u _).db]
    refine (readTxIndex_writeBlockConnected ..).trans ?_
    by_cases htxid : txid ∈ txids b
    · rw [if_pos htxid, if_pos htxid]
    · rw [if_neg htxid, if_neg htxid, hstored.txIndex txid htxid]
  constructor
  · intro txid c q hsuf htxid
    rw [hread]
    rcases List.suffix_cons_iff.mp hsuf with heq | hsuf
    · cases heq
      rw [if_pos htxid]
    · rw [if_neg fun hin => hnew txid hin (mem_txidsOf.mpr ⟨c, q, hsuf, htxid⟩)]
      exact h.names hsuf htxid
  · intro txid hout
    have hsplit : txid ∉ txids b ∧ txid ∉ txidsOf p := by
      rw [← not_or, ← List.mem_append]
      exact hout
    rw [hread, if_neg hsplit.1]
    exact h.only hsplit.2

/-- **A block that stays aside and has no transaction of its own.** -/
theorem Indexed.aside (h : Indexed s p) (hall : ∀ txid ∈ txids b, txid ∈ txidsOf p) (height : Nat)
    (work : Bytes32) :
    Indexed (s.storeBlock b height work false) p := by
  have hread : ∀ txid, (s.storeBlock b height work false).blockData.readTxIndex txid =
      s.blockData.readTxIndex txid := by
    intro txid
    rw [readTxIndex_storeBlock]
    by_cases htxid : txid ∈ txids b
    · obtain ⟨c, q, hsuf, hc⟩ := mem_txidsOf.mp (hall txid htxid)
      rw [if_pos htxid, h.names hsuf hc]
      rfl
    · rw [if_neg htxid]
  constructor
  · intro txid c q hsuf htxid
    rw [hread]
    exact h.names hsuf htxid
  · intro txid hout
    rw [hread]
    exact h.only hout

section Runs

variable [Ed25519]

/-- The block is not stored, or it goes on top of the tip, or it stays aside and the active chain has all its
transactions. -/
def Orderly (s : ChainState) (now : UInt64) (b : Block) : Prop :=
  ∀ parent, Storable s now b parent →
    (b.header.prevBlockHash = s.bestChain.blockHash ∧ s.headerExtendsTip b.header = true ∧
      (Block.deserialize b.serialize).toOption.isSome = true ∧
      compareWork (addChainWork s.bestChain.chainWork b.header.bits) s.bestChain.chainWork = .gt) ∨
    (b.header.prevBlockHash ≠ s.bestChain.blockHash ∧
      compareWork (addChainWork parent.nChainWork b.header.bits) s.bestChain.chainWork ≠ .gt ∧
      ∀ txid ∈ txids b, txid ∈ txidsOf s.activeChain)

theorem AfterStore.isPath {s' : ChainState} {parent : BlockIndexEntry} (h : Inv s p)
    (hafter : AfterStore s p b parent s') (hhdr : s.headerExtendsTip b.header = true)
    (hread : (Block.deserialize b.serialize).toOption.isSome = true) :
    IsPath s'.blockData (b :: p) := by
  obtain ⟨s₁, hstored, hinv₁, hkeeps⟩ := hafter.stored
  obtain ⟨b', hload⟩ : ∃ b', s₁.loadBlock b.getHash = some b' := by
    rw [hstored.loadBlock]
    obtain ⟨r, hr⟩ := Option.isSome_iff_exists.mp hread
    exact ⟨r.1, by rw [hr]; rfl⟩
  obtain rfl := hstored.eq_of_loadBlock hload
  have hhdr₁ : s₁.headerExtendsTip b'.header = true :=
    (headerExtendsTip_congr hinv₁.toFollows h.toFollows _).trans hhdr
  exact (hinv₁.path_of_loadBlock hload hhdr₁).mono hkeeps

/-- **One call keeps the index on the active chain.** -/
theorem Indexed.acceptBlock (h : Indexed s p) (hinv : Inv s p) {now : UInt64}
    (horderly : Orderly s now b) (hdistinct : DistinctTxids (s.acceptBlock noFaults now b).1.blockData) :
    ∃ p', Inv (s.acceptBlock noFaults now b).1 p' ∧ Indexed (s.acceptBlock noFaults now b).1 p' := by
  rcases acceptBlock_cases noFaults s now b with ⟨hsame, -⟩ | ⟨parent, -, -, hrun⟩ | ⟨parent, hst, hrun⟩
  · rw [hsame]
    exact ⟨p, hinv, h⟩
  · rw [hrun]
    exact ⟨p, hinv.mark _, ⟨h.names, h.only⟩⟩
  · have hafter := hinv.storeAndActivate hst
    rw [← hrun] at hafter
    rcases horderly parent hst with ⟨htip, hhdr, hread, hwork⟩ | ⟨htip, hwork, hall⟩
    · have hnodup : (txidsOf (b :: p)).Nodup := hdistinct _ (hafter.isPath hinv hhdr hread)
      have hlen : parent.nHeight + 1 = p.length :=
        (hinv.toFollows.parent_height (htip ▸ hst.onParent)).1
      obtain ⟨-, -, -, happ⟩ := hinv.applies_of_checked hst.check (hlen ▸ hst.verdict htip)
        (injOn_txPreimages hnodup)
      obtain ⟨-, s₁, hon⟩ := hinv.onTip_of_storable hst htip hread hhdr happ hwork
      exact ⟨b :: p, hon.inv, h.onTip hon hnodup⟩
    · rw [hinv.activeChain] at hall
      have hstore := hinv.storeBlock hst.new hst.checked hst.onParent false
      have hside : s.storeAndActivate noFaults b (parent.nHeight + 1) parent.nChainWork false =
          (s.storeBlock b (parent.nHeight + 1) (addChainWork parent.nChainWork b.header.bits) false,
            .ret true) := by
        unfold ChainState.storeAndActivate
        exact if_pos hwork
      rw [hrun, decide_eq_false htip, hside]
      exact ⟨p, hstore.1, h.aside hall ..⟩

end Runs

/-! ## 3. The index of a run -/

theorem indexed_fresh : Indexed fresh.1 [buildGenesisBlock] := by
  have hids : txids buildGenesisBlock = [genesisCoinbase.getHash] := rfl
  have hread : ∀ txid, fresh.1.blockData.readTxIndex txid =
      if txid = genesisCoinbase.getHash then some getGenesisHash else none := by
    intro txid
    obtain ⟨-, -, hdb, -⟩ := fresh_spec
    have hwrite := readTxIndex_writeBlock (BlockData.openDB BlockDB.empty) buildGenesisBlock 0
      genesisTip.chainWork txid
    simp only [hids, List.mem_singleton, buildGenesisBlock_getHash] at hwrite
    rw [readTxIndex, hdb]
    exact hwrite
  constructor
  · intro txid b q hsuf htxid
    rcases List.suffix_cons_iff.mp hsuf with heq | hsuf
    · cases heq
      rw [hids, List.mem_singleton] at htxid
      rw [hread, if_pos htxid, buildGenesisBlock_getHash]
    · simp at hsuf
  · intro txid hout
    have hsplit : txidsOf [buildGenesisBlock] = [genesisCoinbase.getHash] := rfl
    rw [hsplit, List.mem_singleton] at hout
    rw [hread, if_neg hout]

section Main

variable [Ed25519]

/-- **When the transaction index names the active chain.**  After every run in which each block that is stored
goes on top of the tip or brings no transaction that the active chain does not have, and in which no two
transactions on a path share a txid: `GetTransaction` finds a txid if and only if it is on the active chain,
and reports the hash and the height of the active block that has it. -/
theorem getTransaction_active (calls : List (UInt64 × Block)) (hcalls : EveryCall Orderly calls)
    (hdistinct : DistinctTxids (acceptAll fresh.1 calls).blockData) (txid : Bytes32) :
    (((acceptAll fresh.1 calls).getTransaction txid).isSome = true ↔
      ∃ b ∈ (acceptAll fresh.1 calls).activeChain, ∃ tx ∈ b.transactions, tx.getHash = txid) ∧
    ∀ found, (acceptAll fresh.1 calls).getTransaction txid = some found →
      ∀ b below, b :: below <:+ (acceptAll fresh.1 calls).activeChain →
        (∃ tx ∈ b.transactions, tx.getHash = txid) →
        found.tx ∈ b.transactions ∧ found.tx.getHash = txid ∧ found.blockHash = b.getHash ∧
          found.height = below.length := by
  have hrun : DistinctTxids (acceptAll fresh.1 calls).blockData →
      ∃ p, Inv (acceptAll fresh.1 calls) p ∧ Indexed (acceptAll fresh.1 calls) p := by
    refine EveryCall.run (Q := fun s => DistinctTxids s.blockData → ∃ p, Inv s p ∧ Indexed s p)
      (fun _ => ⟨_, inv_fresh.2, indexed_fresh⟩) ?_ calls hcalls
    intro s now block hreach ih horderly hdistinct'
    obtain ⟨p, hinv⟩ := hreach.inv
    obtain ⟨-, -, hkeeps⟩ := hinv.acceptBlock now block
    obtain ⟨p, hinv, hindexed⟩ := ih (hdistinct'.of_keeps hkeeps)
    exact hindexed.acceptBlock hinv horderly hdistinct'
  obtain ⟨p, hinv, hindexed⟩ := hrun hdistinct
  have hmem : txid ∈ txidsOf p ↔ ∃ b ∈ p, ∃ tx ∈ b.transactions, tx.getHash = txid := by
    simp only [txidsOf, List.mem_flatMap, List.mem_map]
  rw [hinv.activeChain, ← hmem]
  rcases hindexed.getTransaction hinv txid with ⟨hnone, hout⟩ | ⟨b, q, tx, htx, hsuf, hid, hsome⟩
  · rw [hnone]
    exact ⟨by simp [hout], by simp⟩
  · have hin : txid ∈ txids b := List.mem_map.mpr ⟨tx, htx, hid⟩
    rw [hsome]
    refine ⟨by simp [mem_txidsOf.mpr ⟨b, q, hsuf, hin⟩], ?_⟩
    rintro found hfound b' below hsuf' ⟨tx', htx', hid'⟩
    cases hfound
    have heq := suffix_unique (hdistinct p hinv.path) hsuf hin hsuf'
      (List.mem_map.mpr ⟨tx', htx', hid'⟩)
    cases heq
    exact ⟨htx, hid, rfl, rfl⟩

end Main

/-! ## 4. A block next to the active chain -/

theorem txids_a1 : txids a1 = [rootX] := by
  rw [← samples.a1.txid]
  rfl

theorem txids_b1 : txids b1 = [rootY] := by
  rw [← samples.b1.txid]
  rfl

theorem txidsOf_pair (b c : Block) : txidsOf [b, c] = txids b ++ (txids c ++ []) := rfl

theorem txidsOf_a1 : txidsOf [a1, buildGenesisBlock] = [rootX, genesisCoinbase.getHash] := by
  rw [txidsOf_pair, txids_a1]
  rfl

theorem txidsOf_b1 : txidsOf [b1, buildGenesisBlock] = [rootY, genesisCoinbase.getHash] := by
  rw [txidsOf_pair, txids_b1]
  rfl

theorem distinctTxids_a1 (h : Knows s a1 [buildGenesisBlock] [a1, buildGenesisBlock]) :
    DistinctTxids s.blockData := by
  refine h.distinctTxids fun b hb => ?_
  rcases List.mem_cons.mp hb with rfl | hb
  · refine ⟨_, h.path, ?_⟩
    rw [txidsOf_a1]
    simpa using samples.genesis.1.symm
  · rw [List.mem_singleton.mp hb]
    exact ⟨[], .genesis h.store.genesis, List.nodup_singleton _⟩

theorem orderly_a1 : @Orderly noSignatures fresh.1 1786725267 a1 := by
  intro parent _
  have htip : fresh.1.bestChain.blockHash = buildGenesisBlock.getHash :=
    inv_fresh.2.toFollows.tip_hash
  refine .inl ⟨next_a1.prev.trans htip.symm, ?_, samples.a1.reads, ?_⟩
  · exact knows_fresh.headerExtendsTip next_a1.on (by decide) (by decide)
  · exact knows_fresh.more_work samples.a1.solo.bits (by decide)

/-- After the one call for `a1` its coinbase is found, in `a1` at height 1. -/
theorem getTransaction_active_a1 : ∃ found,
    (@acceptAll noSignatures fresh.1 [(1786725267, a1)]).getTransaction rootX = some found ∧
      found.blockHash = a1.getHash ∧ found.height = 1 := by
  obtain ⟨-, hknows, -⟩ := extend_a1
  have hrun : @acceptAll noSignatures fresh.1 [(1786725267, a1)] =
      (@acceptBlock noSignatures noFaults fresh.1 1786725267 a1).1 := by
    rw [@acceptAll_cons noSignatures, @acceptAll_nil noSignatures]
  have hcalls : @EveryCall noSignatures (@Orderly noSignatures) [(1786725267, a1)] := by
    intro before now block after heq
    rcases before with - | ⟨first, before⟩
    · cases heq
      rw [@acceptAll_nil noSignatures]
      exact orderly_a1
    · simp at heq
  have hmain := @getTransaction_active noSignatures _ hcalls (by
    rw [hrun]
    exact distinctTxids_a1 hknows) rootX
  have hactive := hknows.toInv.activeChain
  rw [← hrun] at hactive
  have hin : ∃ tx ∈ a1.transactions, tx.getHash = rootX :=
    ⟨_, List.mem_singleton_self _, samples.a1.txid⟩
  rw [hactive] at hmain
  obtain ⟨found, hfound⟩ := Option.isSome_iff_exists.mp
    (hmain.1.mpr ⟨a1, List.mem_cons_self .., hin⟩)
  obtain ⟨-, -, hhash, hheight⟩ := hmain.2 found hfound a1 _ List.suffix_rfl hin
  exact ⟨found, hfound, hhash, hheight⟩

theorem next_b1 : Next [a1, buildGenesisBlock] buildGenesisBlock b1 (coinbaseTo 7700000000 2 [])
    1786725267 :=
  samples.b1.solo.next (List.mem_cons_of_mem _ (List.mem_singleton_self _))
    buildGenesisBlock_getHash.symm rfl samples.b1.getHash
    (.cons samples.a1.getHash (.cons buildGenesisBlock_getHash .nil)) (by decide)

theorem aside_b1 (h : Knows s a1 [buildGenesisBlock] [a1, buildGenesisBlock]) :
    Knows (@acceptBlock noSignatures noFaults s 1786725267 b1).1 a1 [buildGenesisBlock]
        [b1, a1, buildGenesisBlock] ∧
      IsPath (@acceptBlock noSignatures noFaults s 1786725267 b1).1.blockData [b1, buildGenesisBlock] ∧
      ∃ e, StoredFrom s b1 e (@acceptBlock noSignatures noFaults s 1786725267 b1).1 := by
  obtain ⟨hknows, e, -, hstored⟩ := @Knows.aside _ _ _ _ noSignatures h _ _ _ _ next_b1 (by
    rw [samples.a1.getHash, buildGenesisBlock_getHash]
    decide) (by decide) (by decide)
  have hgenesis : IsPath s.blockData [buildGenesisBlock] := .genesis h.store.genesis
  refine ⟨hknows, ?_, e, hstored⟩
  refine hstored.isPath hknows.store hgenesis next_b1.prev ?_ samples.b1.reads
  intro heq
  have hheight : b1.header.height = 1 := rfl
  rw [heq] at hheight
  exact absurd hheight (by decide)

/-- **A transaction that is not on the active chain is found.**  The node is on `a1` and stores `b1` next to it;
no txid repeats.  `GetTransaction` reports the coinbase of `b1`, with the hash of `b1`. -/
theorem getTransaction_side_block :
    DistinctTxids (@acceptAll noSignatures fresh.1 [(1786725267, a1), (1786725267, b1)]).blockData ∧
    (∃ found, (@acceptAll noSignatures fresh.1 [(1786725267, a1), (1786725267, b1)]).getTransaction
      rootY = some found ∧ found.blockHash = b1.getHash) ∧
    ¬ ∃ b ∈ (@acceptAll noSignatures fresh.1 [(1786725267, a1), (1786725267, b1)]).activeChain,
      ∃ tx ∈ b.transactions, tx.getHash = rootY := by
  obtain ⟨-, hknows, s₁, hon⟩ := extend_a1
  have hrun : @acceptAll noSignatures fresh.1 [(1786725267, a1), (1786725267, b1)] =
      (@acceptBlock noSignatures noFaults
        (@acceptBlock noSignatures noFaults fresh.1 1786725267 a1).1 1786725267 b1).1 := by
    rw [@acceptAll_cons noSignatures, @acceptAll_cons noSignatures, @acceptAll_nil noSignatures]
  rw [hrun]
  have hindexed := indexed_fresh.onTip hon (distinctTxids_a1 hknows _ hon.inv.path)
  generalize (@acceptBlock noSignatures noFaults fresh.1 1786725267 a1).1 = s at hknows hindexed
  obtain ⟨hknows', hpath, e, hstored⟩ := aside_b1 hknows
  generalize (@acceptBlock noSignatures noFaults s 1786725267 b1).1 = s' at hknows' hpath hstored
  have hout : rootY ∉ txidsOf [a1, buildGenesisBlock] := by
    rw [txidsOf_a1]
    simp only [List.mem_cons, List.not_mem_nil, or_false, not_or]
    exact ⟨by decide, samples.genesis.2.symm⟩
  have hin : rootY ∈ txids b1 := by
    rw [txids_b1]
    exact List.mem_singleton_self _
  have hread : s'.blockData.readTxIndex rootY = some b1.getHash :=
    hstored.txNew rootY hin (hindexed.only hout)
  refine ⟨hknows'.distinctTxids fun b hb => ?_, ?_, ?_⟩
  · simp only [List.mem_cons, List.not_mem_nil, or_false] at hb
    rcases hb with rfl | rfl | rfl
    · refine ⟨_, hpath, ?_⟩
      rw [txidsOf_b1]
      simpa using samples.genesis.2.symm
    · refine ⟨_, hknows'.path, ?_⟩
      rw [txidsOf_a1]
      simpa using samples.genesis.1.symm
    · exact ⟨[], .genesis hknows'.store.genesis, List.nodup_singleton _⟩
  · obtain ⟨tx, -, -, hget⟩ := getTransaction_of_path hread hpath hin
    exact ⟨_, hget, rfl⟩
  · rw [hknows'.toInv.activeChain]
    rintro ⟨b, hb, tx, htx, hid⟩
    exact hout (List.mem_flatMap.mpr ⟨b, hb, List.mem_map.mpr ⟨tx, htx, hid⟩⟩)

end Moneu
