/-
# Validation and application

`CheckBlockTransactionsWithUTXO` looks every transaction up in the set from BEFORE the block;
`ApplyBlockTwoPhase` applies them one after the other to a set that the coinbase and the earlier
transactions have changed.  The two agree because a block cannot change a coin that it spends later:

* an earlier transaction does not spend it, since the block claims no outpoint twice;
* an earlier transaction does not create it again.  It would have the txid of a transaction of the chain,
  hence its inputs, hence would reveal the leaves that one revealed, and these are spent;
* the coinbase may create it again, but then it pays the same value.

The last two points need that txids do not collide.  Only the transactions of the chain and of the block
are hashed here, so the assumption is about them alone.
-/
import Moneu.Chain.Totals

namespace Moneu

open NetParams Journal UTXOSet BlockData ChainState MachineInt

/-! ## 1. What a txid says about a transaction -/

/-- The bytes that are hashed to the txids of the blocks `p`. -/
def txPreimages (p : List Block) : Set (List UInt8) :=
  {bytes | ∃ b ∈ p, ∃ tx ∈ b.transactions, bytes = tx.serialize false}

/-- Scripts of a block within the size limit have a length the encoding can say. -/
theorem Block.script_lt {b : Block} (h : b.getSerializedSize ≤ MAX_BLOCK_SIZE) {tx : Transaction}
    (htx : tx ∈ b.transactions) : ∀ out ∈ tx.outputs, out.scriptPubKey.length < 2 ^ 64 := by
  intro out hout
  have hone : out.getSerializedSize ≤ (tx.outputs.map TxOutput.getSerializedSize).sum :=
    List.single_le_sum (fun _ _ => Nat.zero_le _) _ (List.mem_map_of_mem hout)
  have htotal : 4 + tx.getSerializedSize true ≤
      (b.transactions.map fun tx => 4 + tx.getSerializedSize true).sum :=
    List.single_le_sum (fun _ _ => Nat.zero_le _) _
      (List.mem_map.mpr ⟨tx, htx, rfl⟩)
  have hscript : out.scriptPubKey.length ≤ out.getSerializedSize := Nat.le_add_left ..
  have houts : (tx.outputs.map TxOutput.getSerializedSize).sum ≤ tx.getSerializedSize true := by
    unfold Transaction.getSerializedSize
    omega
  have hmax : MAX_BLOCK_SIZE < 2 ^ 32 := by decide
  unfold Block.getSerializedSize at h
  omega

theorem BlockData.IsPath.size_le {bd : BlockData} {p : List Block} (h : IsPath bd p) :
    ∀ b ∈ p, b.getSerializedSize ≤ MAX_BLOCK_SIZE := by
  induction h with
  | genesis _ =>
    intro b hb
    rw [List.mem_singleton.mp hb]
    exact size_genesis
  | cons _ _ hchecked _ ih =>
    intro b hb
    rcases List.mem_cons.mp hb with rfl | hb
    · obtain ⟨⟨now, hcheck⟩, -, -⟩ := hchecked
      exact (BlockValidation.checkBlock_ok hcheck).1
    · exact ih b hb

/-- **Transactions with the same txid are the same but for their noise proofs.** -/
theorem preimage_eq_of_getHash {p : List Block} (hinj : Set.InjOn sha256 (txPreimages p))
    (hsize : ∀ b ∈ p, b.getSerializedSize ≤ MAX_BLOCK_SIZE) {b b' : Block} (hb : b ∈ p) (hb' : b' ∈ p)
    {tx tx' : Transaction} (htx : tx ∈ b.transactions) (htx' : tx' ∈ b'.transactions)
    (heq : tx.getHash = tx'.getHash) : tx.preimage = tx'.preimage :=
  Transaction.preimage_eq (b.script_lt (hsize b hb) htx) (b'.script_lt (hsize b' hb') htx')
    (hinj ⟨b, hb, tx, htx, rfl⟩ ⟨b', hb', tx', htx', rfl⟩ heq)

section Twins

variable {tx tx' : Transaction}

theorem isCoinbase_eq_of_preimage (h : tx.preimage = tx'.preimage) :
    tx.isCoinbase = tx'.isCoinbase := by
  have hinputs : tx.inputs.map TxInput.bare = tx'.inputs.map TxInput.bare :=
    congrArg TxPreimage.inputs h
  unfold Transaction.isCoinbase
  generalize tx.inputs = ins, tx'.inputs = ins' at hinputs
  rcases ins with _ | ⟨i, _ | ⟨j, rest⟩⟩ <;> rcases ins' with _ | ⟨i', _ | ⟨j', rest'⟩⟩ <;>
    simp_all [TxInput.bare]

theorem value_eq_of_preimage (h : tx.preimage = tx'.preimage) {height height' : UInt32}
    {isCoinbase isCoinbase' : Bool} {o : OutPoint} {c c' : Coin}
    (hc : (o, c) ∈ tx.created height isCoinbase) (hc' : (o, c') ∈ tx'.created height' isCoinbase') :
    c.value = c'.value := by
  have houts : tx'.outputs = tx.outputs := (congrArg TxPreimage.outputs h).symm
  obtain ⟨j, out, pkh, hj, hu, hpos, hpkh, ho, rfl⟩ := mem_newCoins hc
  obtain ⟨j', out', pkh', hj', hu', hpos', hpkh', ho', rfl⟩ := mem_newCoins hc'
  rw [houts] at hj'
  have hle := tx.outputs_le
  have hmax : Transaction.MAX_OUTPUTS < 2 ^ 32 := by decide
  have hlen := (List.getElem?_eq_some_iff.mp hj).1
  have hlen' := (List.getElem?_eq_some_iff.mp hj').1
  have hindex := congrArg (fun o => o.index.toNat) (ho.symm.trans ho')
  simp only [Nat.zero_add, toNat_ofNat_of_lt (show j < 2 ^ 32 by omega),
    toNat_ofNat_of_lt (show j' < 2 ^ 32 by omega)] at hindex
  subst hindex
  rw [hj] at hj'
  cases hj'
  rfl

theorem common_leaf (h : tx.preimage = tx'.preimage) (hhash : tx.getHash = tx'.getHash)
    (hne : tx.inputs ≠ []) (hp : tx.Proved) (hp' : tx'.Proved) :
    ∃ key, key ∈ tx.leaves ∧ key ∈ tx'.leaves := by
  have hinputs : tx.inputs.map TxInput.bare = tx'.inputs.map TxInput.bare :=
    congrArg TxPreimage.inputs h
  obtain ⟨input, rest, hin⟩ := List.exists_cons_of_ne_nil hne
  rw [hin, List.map_cons] at hinputs
  obtain ⟨input', rest', hin', hbare, -⟩ := List.map_eq_cons_iff.mp hinputs.symm
  have hkps : input'.kps = input.kps := by
    change input'.bare.kps = input.bare.kps
    rw [hbare]
  obtain ⟨-, -, hleaves⟩ := hp 0 input (by rw [hin]; rfl)
  obtain ⟨-, -, hleaves'⟩ := hp' 0 input' (by rw [hin']; rfl)
  rw [hkps, ← hhash, ← hleaves] at hleaves'
  have hpos : input.leaves ≠ [] := by
    rw [hleaves]
    simp [deriveLeafIndices, NOISE_LEAF_COUNT, NOISE_PROOFS_PER_INPUT]
  obtain ⟨key, hkey⟩ := List.exists_mem_of_ne_nil _ hpos
  refine ⟨key, ?_, ?_⟩
  · exact List.mem_flatMap.mpr ⟨input, by rw [hin]; exact List.mem_cons_self .., hkey⟩
  · exact List.mem_flatMap.mpr ⟨input', by rw [hin']; exact List.mem_cons_self .., hleaves' ▸ hkey⟩

end Twins

/-! ## 2. Coins that a block may create again -/

theorem BlockAccepted.tx {coins : OutPoint → Option Coin} {height : UInt32} {coinbase : Transaction}
    {rest : List Transaction} {spents : List (List Coin)}
    (h : BlockAccepted coins height coinbase rest spents) {tx : Transaction} (htx : tx ∈ rest) :
    ∃ spent, TxAccepted coins tx spent := by
  have htxs := h.txs
  clear h
  induction htxs with
  | nil => cases htx
  | cons hone _ ih =>
    rcases List.mem_cons.mp htx with rfl | htx
    · exact ⟨_, hone⟩
    · exact ih htx

/-- The transactions of a valid chain that are no coinbase carry the proofs they call for, and the chain
reveals their leaves. -/
theorem Valid.proved {p : List Block} (h : Valid p) {b : Block} (hb : b ∈ p) {tx : Transaction}
    (htx : tx ∈ b.transactions) (hcb : tx.isCoinbase = false) :
    tx.Proved ∧ ∀ key ∈ tx.leaves, key ∈ leavesOf p := by
  refine ⟨?_, fun key hkey => List.mem_flatMap.mpr ⟨b, hb, List.mem_flatMap.mpr
    ⟨tx, List.mem_filter.mpr ⟨htx, by simp [hcb]⟩, hkey⟩⟩⟩
  induction h with
  | genesis =>
    obtain ⟨coinbase, hshape⟩ := shape_genesis
    rw [List.mem_singleton.mp hb, hshape.transactions, List.mem_singleton] at htx
    rw [htx, hshape.coinbase] at hcb
    cases hcb
  | @cons b' q p _ hconn ih =>
    rcases List.mem_cons.mp hb with rfl | hb
    · obtain ⟨coinbase, rest, spents, hshape, hacc⟩ := hconn.accepted
      rw [hshape.transactions] at htx
      rcases List.mem_cons.mp htx with rfl | htx
      · rw [hshape.coinbase] at hcb
        cases hcb
      · obtain ⟨spent, htx⟩ := hacc.tx htx
        exact htx.proved
    · exact ih hb

section Recreated

variable {s : ChainState} {p : List Block} {b : Block}

/-- A coin of the node under the txid of a new transaction comes from a transaction of the chain that is
the same but for the noise proofs. -/
theorem Inv.twin (h : Inv s p) (hsize : b.getSerializedSize ≤ MAX_BLOCK_SIZE)
    (hinj : Set.InjOn sha256 (txPreimages (b :: p))) {tx : Transaction} (htx : tx ∈ b.transactions)
    {o : OutPoint} (ho : o.txHash = tx.getHash) {c : Coin} (hc : s.utxoSet.getCoin o = some c) :
    ∃ b' ∈ p, ∃ tx' ∈ b'.transactions, tx.preimage = tx'.preimage ∧ tx.getHash = tx'.getHash ∧
      ∃ height isCoinbase, (o, c) ∈ tx'.created height isCoinbase := by
  obtain ⟨b', q, hsuf, tx', htx', isCoinbase, hcreated⟩ := coins_viewOf (h.below.coins o c hc)
  have hb' : b' ∈ p := hsuf.subset (List.mem_cons_self ..)
  have hhash : tx.getHash = tx'.getHash := by
    rw [← ho, txHash_of_mem_outpointsOf (Transaction.mem_outpointsOf_of_created hcreated)]
  refine ⟨b', hb', tx', htx', preimage_eq_of_getHash hinj (fun x hx => ?_)
    (List.mem_cons_self ..) (List.mem_cons_of_mem _ hb') htx htx' hhash, hhash, _, isCoinbase, hcreated⟩
  rcases List.mem_cons.mp hx with rfl | hx
  · exact hsize
  · exact h.path.size_le x hx

/-- **A transaction whose leaves are unspent creates no coin that the node has.** -/
theorem Inv.not_recreated (h : Inv s p) (hsize : b.getSerializedSize ≤ MAX_BLOCK_SIZE)
    (hinj : Set.InjOn sha256 (txPreimages (b :: p))) {tx : Transaction} (htx : tx ∈ b.transactions)
    (hcb : tx.isCoinbase = false) (hne : tx.inputs ≠ []) (hproved : tx.Proved)
    (hfresh : ∀ key ∈ tx.leaves, s.utxoSet.isNoiseLeafSpent key = false) :
    ∀ o ∈ outpointsOf tx, s.utxoSet.getCoin o = none := by
  intro o ho
  rw [Option.eq_none_iff_forall_ne_some]
  intro c hc
  obtain ⟨b', hb', tx', htx', hpre, hhash, -⟩ := h.twin hsize hinj htx (txHash_of_mem_outpointsOf ho) hc
  obtain ⟨hproved', hspent⟩ :=
    h.valid.proved hb' htx' ((isCoinbase_eq_of_preimage hpre).symm.trans hcb)
  obtain ⟨key, hkey, hkey'⟩ := common_leaf hpre hhash hne hproved hproved'
  have hleaf : (viewOf p).leaf key = true := (h.valid.leaves.2 key).mpr (hspent key hkey')
  have hsame : s.utxoSet.isNoiseLeafSpent key = (viewOf p).leaf key := congrFun h.below.leaf key
  rw [hfresh key hkey, hleaf] at hsame
  cases hsame

/-- **A coin that the coinbase creates again has the same value.** -/
theorem Inv.value_recreated (h : Inv s p) (hsize : b.getSerializedSize ≤ MAX_BLOCK_SIZE)
    (hinj : Set.InjOn sha256 (txPreimages (b :: p))) {tx : Transaction} (htx : tx ∈ b.transactions)
    {height : UInt32} {isCoinbase : Bool} {o : OutPoint} {c c' : Coin}
    (hc : s.utxoSet.getCoin o = some c) (hc' : (o, c') ∈ tx.created height isCoinbase) :
    c'.value = c.value := by
  obtain ⟨b', -, tx', -, hpre, -, height', isCoinbase', hcreated⟩ :=
    h.twin hsize hinj htx
      (txHash_of_mem_outpointsOf (Transaction.mem_outpointsOf_of_created hc')) hc
  exact value_eq_of_preimage hpre hc' hcreated

end Recreated

/-! ## 3. The second pass -/

/-- Wherever `coins` has a coin that is asked for, `coins'` has one of the same value. -/
def SameValues (coins coins' : OutPoint → Option Coin) (asked : List OutPoint) : Prop :=
  ∀ o ∈ asked, ∀ c, coins o = some c → ∃ c', coins' o = some c' ∧ c'.value = c.value

theorem SameValues.found {coins coins' : OutPoint → Option Coin} : ∀ {inputs : List TxInput}
    {spent : List Coin}, SameValues coins coins' (inputs.map TxInput.outpoint) →
      inputs.map (fun input => coins input.outpoint) = spent.map some →
      ∃ spent' : List Coin, inputs.map (fun input => coins' input.outpoint) = spent'.map some ∧
        spent'.map Coin.value = spent.map Coin.value
  | [], [], _, _ => ⟨[], rfl, rfl⟩
  | input :: inputs, c :: spent, hsame, hfound => by
    simp only [List.map_cons, List.cons.injEq] at hfound
    obtain ⟨c', hc', hvalue⟩ := hsame _ (List.mem_cons_self ..) c hfound.1
    obtain ⟨spent', hfound', hvalues⟩ := SameValues.found
      (fun o ho => hsame o (List.mem_cons_of_mem _ ho)) hfound.2
    exact ⟨c' :: spent', by simp [hc', hfound'], by simp [hvalue, hvalues]⟩

/-- A transaction that was accepted next to `coins` applies to a view with coins of the same values. -/
theorem TxAccepted.applies {coins : OutPoint → Option Coin} {tx : Transaction} {spent : List Coin}
    (h : TxAccepted coins tx spent) {v : View}
    (hsame : SameValues coins v.coins (tx.inputs.map TxInput.outpoint))
    (hfresh : ∀ key ∈ tx.leaves, v.leaf key = false) (hnodup : tx.leaves.Nodup) :
    ∃ spent', TxApplies v tx spent' := by
  obtain ⟨spent', hfound, hvalues⟩ := hsame.found h.found
  have htotal : Coin.total spent' = Coin.total spent := by
    have hmap : ∀ cs : List Coin, Coin.total cs = ((cs.map Coin.value).map Int64.toInt).sum :=
      fun cs => by rw [List.map_map]; rfl
    rw [hmap, hmap, hvalues]
  have hrange : ∀ c ∈ spent', MoneyRange c.value := by
    intro c hc
    have hmem : c.value ∈ spent.map Coin.value := hvalues ▸ List.mem_map_of_mem hc
    obtain ⟨c₀, hc₀, heq⟩ := List.mem_map.mp hmem
    exact heq ▸ h.range c₀ hc₀
  have hin : (0 : Int64).toInt + Coin.total spent' ≤ MAX_MONEY.toInt := by
    rw [toInt_zero, htotal, zero_add]
    exact h.total
  obtain ⟨valueOut, hout, heqOut⟩ := Transaction.getValueOut_fits h.outputs (h.pays.trans h.total)
  obtain ⟨valueIn, hsum, heqIn⟩ :=
    sumCoins_fits 0 (show MoneyRange 0 from ⟨by decide, by decide⟩) hrange hin
  refine ⟨spent', ⟨hfound, fun input hi => ?_, hfresh, hnodup⟩, valueIn, valueOut,
    fun i => sumCoins_eq_ok hsum, hout, ?_⟩
  · obtain ⟨i, hi⟩ := List.mem_iff_getElem?.mp hi
    obtain ⟨hne, hparse, -⟩ := h.proved i input hi
    exact ⟨hne, hparse⟩
  · have hpays := h.pays
    have hnonneg := (Transaction.getValueOut_ok hout).2.1
    rw [toInt_zero, zero_add] at heqIn
    rw [not_or, Int64.not_lt, Int64.lt_iff_toInt_lt]
    exact ⟨hnonneg, by omega⟩

/-- **Accepted transactions apply one after the other** when none of them creates a coin that was there
before the block. -/
theorem txsApply_of_accepted {coins : OutPoint → Option Coin} {height : UInt32} :
    ∀ {txs : List Transaction} {spents : List (List Coin)} {v : View},
      List.Forall₂ (TxAccepted coins) txs spents → (spentBy txs).Nodup →
      (txs.flatMap Transaction.leaves).Nodup →
      (∀ key ∈ txs.flatMap Transaction.leaves, v.leaf key = false) →
      (∀ tx ∈ txs, ∀ o ∈ outpointsOf tx, coins o = none) →
      SameValues coins v.coins (spentBy txs) → ∃ spents', TxsApply height v txs spents'
  | [], [], _, _, _, _, _, _, _ => ⟨[], trivial⟩
  | tx :: txs, spent :: spents, v, .cons htx htxs, hspent, hleaves, hfresh, hnew, hsame => by
    obtain ⟨-, hspent', hcross⟩ := List.nodup_append'.mp hspent
    obtain ⟨hnodup, hleaves', hcrossLeaf⟩ := List.nodup_append'.mp hleaves
    obtain ⟨spent', happ⟩ := htx.applies (fun o ho => hsame o (List.mem_append_left _ ho))
      (fun key hkey => hfresh key (List.mem_append_left _ hkey)) hnodup
    obtain ⟨spents', happs⟩ : ∃ spents', TxsApply height (v.applyTx height false tx) txs spents' := by
      refine txsApply_of_accepted htxs hspent' hleaves' (fun key hkey => ?_)
        (fun t ht => hnew t (List.mem_cons_of_mem _ ht)) (fun o ho c hc => ?_)
      · rw [← Bool.not_eq_true, View.leaf_applyTx]
        rintro (hmem | hv)
        · exact hcrossLeaf hmem hkey
        · rw [hfresh key (List.mem_append_right _ hkey)] at hv
          cases hv
      · -- the transaction neither spends nor creates what a later one spends
        have hkeys : o ∉ keys (tx.coinLog height false) := fun hmem => by
          rcases Transaction.mem_keys_coinLog hmem with ⟨-, hin⟩ | ⟨c', hc'⟩
          · exact hcross hin ho
          · have hnone := hnew tx (List.mem_cons_self ..) o
              (Transaction.mem_outpointsOf_of_created hc')
            rw [hc] at hnone
            cases hnone
        obtain ⟨c', hc', hvalue⟩ := hsame o (List.mem_append_right _ ho) c hc
        exact ⟨c', (replay_of_notMem v.coins hkeys).trans hc', hvalue⟩
    exact ⟨spent' :: spents', happ, happs⟩

section Application

variable [Ed25519]

/-- **The transactions of a checked block other than the coinbase create no coin that the node has.** -/
theorem Inv.others_new {s : ChainState} {p : List Block} {b : Block} {height : UInt32}
    {coinbase : Transaction} {rest : List Transaction} (h : Inv s p)
    (hsize : b.getSerializedSize ≤ MAX_BLOCK_SIZE) (hshape : b.Shape coinbase rest)
    (hutxo : BlockValidation.checkBlockTransactionsWithUTXO b s.utxoSet height = .ok ())
    (hinj : Set.InjOn sha256 (txPreimages (b :: p))) :
    ∀ tx ∈ rest, ∀ o ∈ outpointsOf tx, s.utxoSet.getCoin o = none := by
  obtain ⟨spents, hacc, hfresh⟩ :=
    BlockValidation.checkBlockTransactionsWithUTXO_ok hshape.transactions hshape.rest hutxo
  intro tx htx
  obtain ⟨spent, htxAcc⟩ := hacc.tx htx
  exact h.not_recreated hsize hinj (by rw [hshape.transactions]; exact List.mem_cons_of_mem _ htx)
    htxAcc.notCoinbase htxAcc.inputs htxAcc.proved fun key hkey =>
      hfresh key (List.mem_flatMap.mpr ⟨tx, htx, hkey⟩)

theorem Inv.applies_of_checked {s : ChainState} {p : List Block} {b : Block} {now : UInt64}
    {height : UInt32} (h : Inv s p) (hcheck : BlockValidation.checkBlock b now = .ok ())
    (hutxo : BlockValidation.checkBlockTransactionsWithUTXO b s.utxoSet height = .ok ())
    (hinj : Set.InjOn sha256 (txPreimages (b :: p))) :
    ∃ coinbase rest, b.Shape coinbase rest ∧ ∃ spents, s.utxoSet.view.BlockApplies height b spents := by
  obtain ⟨hsize, ⟨coinbase, rest, htxs, hcb, hrest⟩, -⟩ := BlockValidation.checkBlock_ok hcheck
  have hshape : b.Shape coinbase rest := ⟨htxs, hcb, fun tx htx => (hrest tx htx).1⟩
  obtain ⟨spents, hacc, hfresh⟩ :=
    BlockValidation.checkBlockTransactionsWithUTXO_ok htxs hshape.rest hutxo
  have hnew := h.others_new hsize hshape hutxo hinj
  have hsame : SameValues s.utxoSet.getCoin
      (s.utxoSet.view.applyTx height true coinbase).coins (spentBy rest) := by
    intro o _ c hc
    by_cases hkey : o ∈ keys (coinbase.coinLog height true)
    · rcases Transaction.mem_keys_coinLog hkey with ⟨hfalse, -⟩ | ⟨c₁, hc₁⟩
      · cases hfalse
      · have hlog := mem_of_replay s.utxoSet.getCoin hkey
        obtain ⟨item, hitem, heq⟩ := List.mem_map.mp hlog
        obtain ⟨rfl, hval⟩ := Prod.mk.inj heq
        exact ⟨item.2, hval.symm, h.value_recreated hsize hinj
          (by rw [htxs]; exact List.mem_cons_self ..) hc hitem⟩
    · exact ⟨c, (replay_of_notMem _ hkey).trans hc, rfl⟩
  obtain ⟨spents', happ⟩ := txsApply_of_accepted hacc.txs hacc.outpoints hacc.leaves
    (v := s.utxoSet.view.applyTx height true coinbase) hfresh hnew hsame
  refine ⟨coinbase, rest, hshape, spents', ?_⟩
  simp only [View.BlockApplies, htxs, hcb]
  exact happ

end Application

theorem eq_ok_of_isOk {ε : Type} {x : Except ε Unit} (h : x.isOk = true) : x = .ok () := by
  cases x with
  | error e => cases h
  | ok a => rfl

/-- A block with nothing but a coinbase is checked for the reward alone. -/
theorem BlockValidation.checkBlockTransactionsWithUTXO_coinbase [Ed25519] {b : Block}
    {coinbase : Transaction} (h : b.transactions = [coinbase]) (u : UTXOSet) (height : UInt32) :
    checkBlockTransactionsWithUTXO b u height = checkCoinbaseValue coinbase height 0 := by
  unfold checkBlockTransactionsWithUTXO
  rw [h]
  rfl

end Moneu
