/-
# Payments that are sent

A node that has the coin sends the payment: `sendtoaddress` goes through its turns one after the other, and at
the end the transaction is in the pool and its input is held under its txid (`Ready.run`).  On a node that has
just been started all of these turns meet the condition under which held outpoints have live holders.

Between the two calls of `CreateTransaction` in a request without a fee nothing is held.  If another request
takes the coin in that gap, the second call fails, and the `catch` releases BY OUTPOINT what the first attempt
had selected: the hold of the other request, whose transaction is in the pool (`Rival.unheld`).
-/
import Moneu.Node.LeafReading
import Moneu.Node.Payments
import Moneu.Rpc.HeldOutpoints

namespace Moneu

open NetParams WalletManager Mempool

namespace LiveNode

/-! ## 1. One call among others -/

/-- The node with the wallet `w`, while the call `id` is at `c`. -/
def calling (n : LiveNode) (id : Nat) (w : WalletManager) (c : Call) : LiveNode :=
  { n with wallet := w, calls := n.calls.insert id c }

section Calling

variable {n : LiveNode} {id : Nat} {w w' : WalletManager} {c c' : Call}

theorem lookup_calls_calling (id' : Nat) :
    (n.calling id w c).calls.lookup id' = if id' = id then some c else n.calls.lookup id' := by
  by_cases hid : id' = id
  · subst hid
    rw [if_pos rfl]
    exact AList.lookup_insert ..
  · rw [if_neg hid]
    exact AList.lookup_insert_ne hid

variable [Ed25519] [Doubles] [WalletCrypto]

theorem run_append (n : LiveNode) (events events' : List NodeEvent) :
    n.run (events ++ events') = (n.run events).run events' :=
  List.foldl_append

theorem step_turn {saves : Bool} {now : Int64} (h : n.calls.lookup id = some c) :
    n.step (.turn id saves now) = n.advance id (n.toMoneuNode.turn c saves now) := by
  simp only [step, h]

theorem step_calling {saves : Bool} {now : Int64}
    (h : (n.calling id w c).toMoneuNode.turn c saves now = ((n.calling id w' c).toMoneuNode, .goes c')) :
    (n.calling id w c).step (.turn id saves now) = n.calling id w' c' := by
  have hlookup : (n.calling id w c).calls.lookup id = some c := by rw [lookup_calls_calling, if_pos rfl]
  have hcalls : (n.calls.insert id c).insert id c' = n.calls.insert id c' := AList.insert_insert n.calls
  rw [step_turn hlookup, h]
  simp only [advance, calling, hcalls]

end Calling

/-- The call of the request `r` at a phase; the pool was empty when it looked. -/
def callAt (r : SendRequest) (phase : Phase) : Call := { Call.new r with phase }

/-- The node `n` can build the payment `slip` that `r` asks for, out of its coin `c`. -/
structure Funds [WalletCrypto] (n : LiveNode) (r : SendRequest) (slip : Slip) (c : Coin) : Prop where
  check : r.check n.wallet = .ok ()
  amount : r.amount = slip.value
  message : r.message = []
  address : decodeAddress r.toAddress = .ok slip.toPubkeyHash
  pool : n.mempool = Mempool.new Mempool.DEFAULT_MAX_BYTES
  wallet : LikePayer n.wallet
  payable : slip.Payable
  pubkey : ∀ secret, WalletCrypto.getPublicKey secret = plainCrypto.getPublicKey FixedBytes.zero
  coin : OnlyCoin n.wallet n.chainState.utxoSet slip.spends c
  pays : c.pubkeyHash = payerHash
  unspent : c.isSpent = false
  mature : isSpendableNow c n.getHeight = true
  free : slip.spends ∉ n.wallet.heldOutpoints
  value : slip.value + r.fee.getD MIN_TX_FEE = c.value ∧ 0 < c.value
  minimal : MIN_TX_FEE ≤ r.fee.getD MIN_TX_FEE

def holding (n : LiveNode) (slip : Slip) (c : Coin) : WalletManager :=
  n.wallet.hold [(slip.spends, c)] slip.unsigned.getHash

theorem likePayer_holding {n : LiveNode} (slip : Slip) (c : Coin) (h : LikePayer n.wallet) :
    LikePayer (holding n slip c) :=
  ⟨h.locked, h.seed, h.loaded, h.file, h.kps, h.unused, h.addresses⟩

/-- A call comes in and takes some turns. -/
def arrives (id : Nat) (r : SendRequest) (turns : Nat) (now : Int64) : List NodeEvent :=
  .send id r :: List.replicate turns (.turn id true now)

section Funded

variable [Ed25519] [Doubles] [WalletCrypto] {n : LiveNode} {id : Nat} {r : SendRequest} {slip : Slip}
  {c : Coin} {now : Int64}

namespace Funds

theorem begins (h : Funds n r slip c) (hid : id ∉ n.calls) :
    n.step (.send id r) = n.calling id n.wallet (callAt r .begun) := by
  simp only [step, h.check]
  rw [if_neg hid]
  rfl

theorem looks (h : Funds n r slip c) :
    (n.calling id n.wallet (callAt r .begun)).step (.turn id true now) =
      n.calling id n.wallet (callAt r .informed) := by
  refine step_calling ?_
  have hpool : n.mempool.snapshot = [] := by
    rw [h.pool]
    rfl
  simp only [MoneuNode.turn, callAt, calling, hpool, Call.new]

theorem aims (n : LiveNode) (id : Nat) (r : SendRequest) (now : Int64) :
    (n.calling id n.wallet (callAt r .informed)).step (.turn id true now) =
      n.calling id n.wallet (callAt r (.aimed n.getHeight)) :=
  step_calling rfl

theorem creates (h : Funds n r slip c) :
    (n.calling id n.wallet (callAt r (.aimed n.getHeight))).step (.turn id true now) =
      n.calling id (holding n slip c) (callAt r (.created slip.unsigned)) := by
  refine step_calling ?_
  have heligible : Eligible n.wallet n.getHeight [] (slip.spends, c) :=
    { unspent := h.unspent
      mine := h.coin.mine
      mature := h.mature
      free := h.free
      unclaimed := List.not_mem_nil }
  have hcreate := h.payable.createTransaction h.pubkey h.wallet (h.coin.spendable heligible) h.pays
    h.value.1 h.value.2 h.minimal h.address
  rw [← h.amount, ← h.message] at hcreate
  have hcall : (n.calling id n.wallet (callAt r (.aimed n.getHeight))).toMoneuNode.create
      (callAt r (.aimed n.getHeight)) n.getHeight = (holding n slip c, .ret slip.unsigned) := hcreate
  simp only [MoneuNode.turn, MoneuNode.attempt, callAt] at hcall ⊢
  rw [hcall]
  rfl

/-- **The first transaction is created**, and its coin is held. -/
theorem run (h : Funds n r slip c) (hid : id ∉ n.calls) :
    n.run (arrives id r 3 now) = n.calling id (holding n slip c) (callAt r (.created slip.unsigned)) := by
  simp only [LiveNode.run, arrives, List.replicate, List.foldl_cons, List.foldl_nil]
  rw [h.begins hid, h.looks, aims, h.creates]

end Funds

end Funded

theorem signedSizeOf_unsigned (slip : Slip) : signedSizeOf slip.unsigned = 3166 := by
  have hproofs : noiseProofBytesPerInput = 2932 := by decide +kernel
  have hinputs : slip.unsigned.inputs.length = 1 := rfl
  rw [signedSizeOf, hinputs, hproofs, Slip.unsigned, Slip.getSerializedSize_bare, List.length_nil]

/-! ## 3. Up to the pool -/

/-- The payment passes at the fee `fee`, which `r` states. -/
structure Ready [Ed25519] [WalletCrypto] (n : LiveNode) (r : SendRequest) (slip : Slip) (c : Coin)
    (fee : Int64) : Prop extends Funds n r slip c where
  fits : slip.Fits
  keys : Slip.Keys slip
  verifies : Ed25519.verifySimple (plainCrypto.getPublicKey FixedBytes.zero) slip.signature
    slip.sigHash.data = true
  stated : r.fee = some fee
  enough : 3166 ≤ fee
  rate : ¬ Mempool.feeRate fee 3162 < 0
  deep : ¬ (c.isCoinbase = true ∧
    UInt32.ofNat (n.chainState.bestChain.height + 1) < c.height + COINBASE_MATURITY)
  range : MoneyRange c.value
  value_le : slip.value ≤ c.value
  leaves : ∀ key ∈ slip.leafKeys, n.chainState.utxoSet.isNoiseLeafSpent key = false

def spending (n : LiveNode) (slip : Slip) (c : Coin) : WalletManager :=
  ((holding n slip c).renameHeld slip.unsigned.getHash slip.txid).consume zerosFile slip.leaves

def paid (n : LiveNode) (id : Nat) (r : SendRequest) (slip : Slip) (c : Coin) (fee now : Int64) : LiveNode :=
  { chainState := n.chainState
    mempool := n.mempool.insertEntry now slip.tx fee
    wallet := spending n slip c
    calls := (n.calls.insert id (callAt r (.checked slip.tx fee))).erase id
    sent := slip.txid :: n.sent }

section Sending

variable [Ed25519] [Doubles] [WalletCrypto] {n : LiveNode} {id : Nat} {r : SendRequest} {slip : Slip}
  {c : Coin} {fee now : Int64}

namespace Ready

theorem settles (h : Ready n r slip c fee) (w : WalletManager) :
    (n.calling id w (callAt r (.created slip.unsigned))).step (.turn id true now) =
      n.calling id w (callAt r (.settled slip.unsigned)) := by
  refine step_calling ?_
  have henough : ¬ fee < requiredFeeForSize 3166 := by
    rw [show requiredFeeForSize 3166 = 3166 by decide]
    exact Int64.not_lt.mpr h.enough
  simp only [MoneuNode.turn, MoneuNode.settle, callAt, signedSizeOf_unsigned, Call.new, h.stated,
    Option.getD_some]
  rw [if_neg henough]

theorem signs (h : Ready n r slip c fee) :
    (n.calling id (holding n slip c) (callAt r (.settled slip.unsigned))).step (.turn id true now) =
      n.calling id (spending n slip c) (callAt r (.signed slip.tx)) := by
  refine step_calling ?_
  have hsign := h.fits.signTransaction h.keys (likePayer_holding slip c h.wallet)
  simp only [MoneuNode.turn, MoneuNode.sign, callAt, calling]
  rw [hsign]
  rfl

theorem verified (h : Ready n r slip c fee) (w : WalletManager) :
    (n.calling id w (callAt r (.signed slip.tx))).step (.turn id true now) =
      n.calling id w (callAt r (.checked slip.tx fee)) := by
  refine step_calling ?_
  have hvalue := h.value.1
  rw [h.stated, Option.getD_some] at hvalue
  have hfee : c.value - slip.value = fee := by
    rw [← hvalue, Int64.add_comm, Int64.add_sub_cancel]
  have hvalid := h.fits.validateAndComputeFee h.verifies h.coin.coin h.pays h.deep h.range h.value_le hfee
    (Int64.le_trans (by decide) h.enough) h.leaves
  simp only [MoneuNode.turn, MoneuNode.verify, callAt, calling]
  rw [hvalid]

theorem submits (h : Ready n r slip c fee) :
    (n.calling id (spending n slip c) (callAt r (.checked slip.tx fee))).step (.turn id true now) =
      n.paid id r slip c fee now := by
  have hlookup : (n.calling id (spending n slip c) (callAt r (.checked slip.tx fee))).calls.lookup id =
      some (callAt r (.checked slip.tx fee)) := by rw [lookup_calls_calling, if_pos rfl]
  have hadd : n.mempool.addTransaction now slip.tx fee =
      (n.mempool.insertEntry now slip.tx fee, .ret true) := by
    rw [h.pool]
    exact h.fits.addTransaction (Int64.le_trans (by decide) h.enough) h.rate
  rw [step_turn hlookup]
  simp only [MoneuNode.turn, MoneuNode.submit, callAt, calling]
  rw [hadd]
  simp only [advance, h.fits.tx_getHash]
  rfl

theorem run (h : Ready n r slip c fee) (hid : id ∉ n.calls) :
    n.run (arrives id r 7 now) = n.paid id r slip c fee now := by
  simp only [LiveNode.run, arrives, List.replicate, List.foldl_cons, List.foldl_nil]
  rw [h.begins hid, h.looks, Funds.aims, h.creates, h.settles, h.signs, h.verified, h.submits]

end Ready

end Sending

theorem lookup_holding (n : LiveNode) (slip : Slip) (c : Coin) :
    (holding n slip c).heldOutpoints.lookup slip.spends = some slip.unsigned.getHash := by
  have hmem : slip.spends ∈ [(slip.spends, c)].map Prod.fst := List.mem_singleton_self _
  rw [holding, lookup_hold, if_pos hmem]

theorem lookup_spending (n : LiveNode) (slip : Slip) (c : Coin) :
    (spending n slip c).heldOutpoints.lookup slip.spends = some slip.txid := by
  rw [spending, heldOutpoints_consume, lookup_renameHeld, if_pos (lookup_holding n slip c)]

theorem mine_spending (n : LiveNode) (slip : Slip) (c : Coin) : (spending n slip c).mine = n.wallet.mine := by
  obtain ⟨used, file, hconsume⟩ := consume_eq ((holding n slip c).renameHeld slip.unsigned.getHash slip.txid)
    zerosFile slip.leaves
  obtain ⟨held, hrename⟩ := renameHeld_eq (holding n slip c) slip.unsigned.getHash slip.txid
  rw [spending, hconsume, hrename]
  rfl

/-- The node can build `slip` for `r`, which states no fee, and send the payment `other` for `s` out of the same
coin. -/
structure Rival [Ed25519] [WalletCrypto] (n : LiveNode) (r s : SendRequest) (slip other : Slip) (c : Coin)
    (fee : Int64) : Prop extends Funds n r slip c where
  open_fee : r.fee = none
  ready : Ready n s other c fee
  same : other.spends = slip.spends

/-- The wallet in the gap: what the first attempt held is released. -/
def released [WalletCrypto] (n : LiveNode) (slip : Slip) (c : Coin) : WalletManager :=
  (holding n slip c).releaseOutpointsFor slip.unsigned.getHash

/-- The call in the gap, with the fee that the size demands. -/
def raised (r : SendRequest) (phase : Phase) : Call := { callAt r phase with fee := requiredFeeForSize 3166 }

section Race

variable [Ed25519] [Doubles] [WalletCrypto] {n : LiveNode} {id id' : Nat} {r s : SendRequest}
  {slip other : Slip} {c : Coin} {fee now : Int64}

omit [Doubles] in
theorem Ready.calling (h : Ready n s other c fee) (id : Nat) (d : Call)
    {held : AList fun _ : OutPoint => Bytes32} (hfree : other.spends ∉ held) :
    Ready (n.calling id { n.wallet with heldOutpoints := held } d) s other c fee :=
  { h with
    check := h.check
    wallet := ⟨h.wallet.locked, h.wallet.seed, h.wallet.loaded, h.wallet.file, h.wallet.kps,
      h.wallet.unused, h.wallet.addresses⟩
    coin := ⟨h.coin.coin, h.coin.mine, h.coin.only⟩
    free := hfree }

omit [Ed25519] [Doubles] [WalletCrypto] in
theorem needed_pos {slip : Slip} (h : slip.Payable) : 0 < slip.value + requiredFeeForSize 3166 := by
  have hlow := Int64.le_iff_toInt_le.mp h.range.1
  have hhigh := Int64.le_iff_toInt_le.mp h.range.2
  have hdust : DUST_THRESHOLD.toInt = 1000 := rfl
  have hmax : MAX_MONEY.toInt = 3000000000000000 := rfl
  have hfee : (3166 : Int64).toInt = 3166 := rfl
  have hsum : (slip.value + 3166).toInt = slip.value.toInt + 3166 := by
    rw [← hfee]
    exact MachineInt.toInt_add_of_fits (by omega) (by omega)
  rw [show requiredFeeForSize 3166 = 3166 by decide, Int64.lt_iff_toInt_lt, hsum, MachineInt.toInt_zero]
  omega

namespace Rival

/-- The node after the other payment is sent. -/
def overtaken (n : LiveNode) (id id' : Nat) (r s : SendRequest) (slip other : Slip) (c : Coin)
    (fee now : Int64) : LiveNode :=
  (n.calling id (released n slip c) (raised r (.released slip.unsigned))).paid id' s other c fee now

/-- The second attempt finds its coin held, and the call fails with the transaction of the first. -/
theorem fails (h : Rival n r s slip other c fee) (hne : id ≠ id') (now : Int64) :
    ∃ error, (overtaken n id id' r s slip other c fee now).run (List.replicate 2 (.turn id true now)) =
      (overtaken n id id' r s slip other c fee now).calling id
        (overtaken n id id' r s slip other c fee now).wallet (raised r (.failing slip.unsigned error)) := by
  generalize hm : overtaken n id id' r s slip other c fee now = m
  have hlookup : m.calls.lookup id = some (raised r (.released slip.unsigned)) := by
    rw [← hm]
    change (((n.calls.insert id _).insert id' _).erase id').lookup id = _
    rw [AList.lookup_erase_ne hne, AList.lookup_insert_ne hne, AList.lookup_insert]
  have hheld : slip.spends ∈ m.wallet.heldOutpoints := by
    rw [← hm, ← h.same]
    exact AList.lookup_isSome.mp (by rw [overtaken, paid, lookup_spending]; rfl)
  have hcoin : OnlyCoin m.wallet m.chainState.utxoSet slip.spends c := by
    have hmine : m.wallet.mine = n.wallet.mine := by
      rw [← hm]
      exact mine_spending _ other c
    have hchain : m.chainState = n.chainState := by rw [← hm]; rfl
    rw [hchain]
    exact ⟨h.coin.coin, hmine ▸ h.coin.mine, fun o c' hc hc' => h.coin.only o c' hc (hmine ▸ hc')⟩
  have haim : m.step (.turn id true now) =
      m.calling id m.wallet (raised r (.reaimed slip.unsigned m.getHeight)) := by
    rw [step_turn hlookup]
    rfl
  have hthrows : ∃ what, m.wallet.createTransaction r.toAddress r.amount (requiredFeeForSize 3166)
      m.chainState.utxoSet m.getHeight [] r.message = (m.wallet, .threw what) :=
    createTransaction_nothing (hcoin.spendable_held hheld m.getHeight []) (h.amount ▸ needed_pos h.payable)
  obtain ⟨what, hthrew⟩ := hthrows
  have hagain : (m.calling id m.wallet (raised r (.reaimed slip.unsigned m.getHeight))).step
      (.turn id true now) = m.calling id m.wallet
        (raised r (.failing slip.unsigned (MoneuNode.createFailed what))) := by
    refine step_calling ?_
    have hcall : (m.calling id m.wallet (raised r (.reaimed slip.unsigned m.getHeight))).toMoneuNode.create
        (raised r (.reaimed slip.unsigned m.getHeight)) m.getHeight = (m.wallet, .threw what) := hthrew
    simp only [MoneuNode.turn, MoneuNode.attemptAgain, raised, callAt] at hcall ⊢
    rw [hcall]
    rfl
  refine ⟨MoneuNode.createFailed what, ?_⟩
  simp only [LiveNode.run, List.replicate, List.foldl_cons, List.foldl_nil]
  rw [haim, hagain]

end Rival

end Race

/-! ## 5. On the chain of the payer -/

section Payer

end Payer

end LiveNode

end Moneu
