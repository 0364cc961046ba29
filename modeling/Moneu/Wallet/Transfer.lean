/-
# What `CreateTransaction` builds

The coins a wallet may select are coins of the UTXO set, each of them once (`Offered`).  The loop
takes them in their order until the amount and the fee are covered (`Selects`); as all coins of the
UTXO set together are worth at most `MAX_MONEY`, no sum on the way leaves the range of an
`int64_t`.  The rest is bookkeeping: one input for each coin, the payment, the message, the change.

`createTransaction_ret` says once what a transaction that was returned went through; the facts about
transfers are read off it.
-/
import Moneu.Chain.Totals
import Moneu.Crypto.Sha256Nat
import Moneu.Storage.CoinScan
import Moneu.Wallet.WalletManager

namespace Moneu

open NetParams MachineInt

namespace WalletManager

/-! ## 1. The coins on offer -/

section Coins

/-- Coins of a UTXO set, each of them once. -/
structure Offered (u : UTXOSet) (coins : List (OutPoint × Coin)) : Prop where
  nodup : (coins.map Prod.fst).Nodup
  found : ∀ utxo ∈ coins, u.getCoin utxo.1 = some utxo.2

theorem Offered.sublist {u : UTXOSet} {coins fewer : List (OutPoint × Coin)} (h : Offered u coins)
    (hsub : fewer.Sublist coins) : Offered u fewer :=
  ⟨h.nodup.sublist (hsub.map _), fun utxo hutxo => h.found utxo (hsub.subset hutxo)⟩

/-- The database as rows. -/
def dbRows (u : UTXOSet) : List (OutPoint × Option Coin) :=
  u.db.coins.entries.map fun slot => (slot.1, slot.2.live)

theorem mem_dbRows {u : UTXOSet} {o : OutPoint} {v : Option Coin} :
    (o, v) ∈ dbRows u ↔ ∃ coin, u.db.coins.lookup o = some coin ∧ coin.live = v := by
  rw [dbRows, List.mem_map]
  constructor
  · rintro ⟨⟨o', coin⟩, hslot, heq⟩
    cases heq
    exact ⟨coin, AList.mem_lookup_iff.mpr hslot, rfl⟩
  · rintro ⟨coin, hlookup, rfl⟩
    exact ⟨⟨o, coin⟩, AList.mem_lookup_iff.mp hlookup, rfl⟩

/-- **The query is a scan of the cache over the database.** -/
theorem getUTXOsForAddresses_eq (u : UTXOSet) (pubkeyHashes : List Bytes32) :
    getUTXOsForAddresses u pubkeyHashes =
      Overlay.scan (fun coin => decide (coin.pubkeyHash ∈ pubkeyHashes)) u.cacheRows (dbRows u) := by
  have hpick := UTXOSet.pick_live fun hash => decide (hash ∈ pubkeyHashes)
  have hscan : Overlay.scan (fun coin => decide (coin.pubkeyHash ∈ pubkeyHashes)) u.cacheRows (dbRows u) =
      (u.cache.entries.filterMap fun slot =>
        if !slot.2.coin.isSpent && slot.2.coin.pubkeyHash ∈ pubkeyHashes then
          some (slot.1, slot.2.coin)
        else none) ++
      u.db.coins.entries.filterMap fun slot =>
        if !slot.2.isSpent && slot.2.pubkeyHash ∈ pubkeyHashes && slot.1 ∉ u.cache then
          some (slot.1, slot.2)
        else none := by
    unfold Overlay.scan Overlay.bare
    rw [UTXOSet.keys_cacheRows]
    congr 1
    · rw [UTXOSet.cacheRows, List.filterMap_map]
      exact List.filterMap_congr fun slot _ => hpick slot.1 slot.2.coin
    · rw [dbRows, List.filter_map, List.filterMap_map, List.filterMap_filter]
      refine List.filterMap_congr fun slot _ => ?_
      have hmem : slot.1 ∈ u.cache ↔ slot.1 ∈ u.cache.keys := Iff.rfl
      simp only [Function.comp_apply, hpick]
      by_cases ho : slot.1 ∈ u.cache.keys
      · simp [hmem, ho]
      · simp [hmem, ho]
  unfold getUTXOsForAddresses
  split
  · rename_i hempty
    rw [hscan, List.isEmpty_iff.mp hempty]
    simp
  · exact hscan.symm

/-- **The query finds exactly the coins** that pay to one of the hashes. -/
theorem mem_getUTXOsForAddresses {u : UTXOSet} {pubkeyHashes : List Bytes32} {o : OutPoint} {c : Coin} :
    (o, c) ∈ getUTXOsForAddresses u pubkeyHashes ↔ u.getCoin o = some c ∧ c.pubkeyHash ∈ pubkeyHashes := by
  rw [getUTXOsForAddresses_eq, Overlay.mem_scan, UTXOSet.getCoin_eq_some_iff mem_dbRows, decide_eq_true_eq]

/-- **The query over cache and database** returns coins of the set, each of them once. -/
theorem offered_getUTXOsForAddresses (u : UTXOSet) (pubkeyHashes : List Bytes32) :
    Offered u (getUTXOsForAddresses u pubkeyHashes) ∧
      ∀ utxo ∈ getUTXOsForAddresses u pubkeyHashes,
        utxo.2.isSpent = false ∧ utxo.2.pubkeyHash ∈ pubkeyHashes := by
  refine ⟨⟨?_, fun utxo hutxo => (mem_getUTXOsForAddresses.mp hutxo).1⟩, fun utxo hutxo => ?_⟩
  · rw [getUTXOsForAddresses_eq]
    refine Overlay.nodup_scan ?_ ?_
    · rw [UTXOSet.keys_cacheRows]
      exact u.cache.nodupKeys
    · rw [Overlay.keys, dbRows, List.map_map]
      exact u.db.coins.nodupKeys
  · obtain ⟨hcoin, hmine⟩ := mem_getUTXOsForAddresses.mp hutxo
    exact ⟨UTXOSet.isSpent_of_getCoin hcoin, hmine⟩

theorem offered_spendable (w : WalletManager) (u : UTXOSet) (chainHeight : UInt32)
    (poolTxs : List Transaction) : Offered u (w.spendable u chainHeight poolTxs) :=
  (offered_getUTXOsForAddresses u w.mine).1.sublist List.filter_sublist

/-- The filters a coin has passed that may be selected. -/
structure Eligible (w : WalletManager) (chainHeight : UInt32) (poolTxs : List Transaction)
    (utxo : OutPoint × Coin) : Prop where
  unspent : utxo.2.isSpent = false
  mine : utxo.2.pubkeyHash ∈ w.mine
  mature : isSpendableNow utxo.2 chainHeight = true
  free : utxo.1 ∉ w.heldOutpoints
  unclaimed : utxo.1 ∉ spentInPool poolTxs

theorem eligible_spendable {w : WalletManager} {u : UTXOSet} {chainHeight : UInt32}
    {poolTxs : List Transaction} {utxo : OutPoint × Coin}
    (h : utxo ∈ w.spendable u chainHeight poolTxs) : Eligible w chainHeight poolTxs utxo := by
  obtain ⟨hquery, hfilter⟩ := List.mem_filter.mp h
  obtain ⟨hunspent, hmine⟩ := (offered_getUTXOsForAddresses u w.mine).2 utxo hquery
  simp only [Bool.and_eq_true, decide_eq_true_eq] at hfilter
  exact ⟨hunspent, hmine, hfilter.1.1, hfilter.1.2, hfilter.2⟩

end Coins

/-! ## 2. What coins are worth -/

section Worth

/-- The value of some coins, without a machine word. -/
def worthOf (coins : List (OutPoint × Coin)) : Int := (coins.map fun utxo => utxo.2.value.toInt).sum

@[simp] theorem worthOf_nil : worthOf [] = 0 := rfl

@[simp] theorem worthOf_cons (utxo : OutPoint × Coin) (coins : List (OutPoint × Coin)) :
    worthOf (utxo :: coins) = utxo.2.value.toInt + worthOf coins := by
  simp [worthOf]

@[simp] theorem worthOf_append (coins more : List (OutPoint × Coin)) :
    worthOf (coins ++ more) = worthOf coins + worthOf more := by
  simp [worthOf]

/-- No coin is worth less than nothing, and all together are worth at most `MAX_MONEY`. -/
structure Sane (u : UTXOSet) : Prop where
  nonneg : ∀ o coin, u.getCoin o = some coin → 0 ≤ coin.value
  total_le : u.totalValue ≤ MAX_MONEY.toInt

/-- Values that are not negative. -/
def NonNeg (coins : List (OutPoint × Coin)) : Prop := ∀ utxo ∈ coins, 0 ≤ utxo.2.value.toInt

theorem NonNeg.worthOf_nonneg {coins : List (OutPoint × Coin)} (h : NonNeg coins) :
    0 ≤ worthOf coins := by
  refine List.sum_nonneg ?_
  intro n hn
  obtain ⟨utxo, hutxo, rfl⟩ := List.mem_map.mp hn
  exact h utxo hutxo

theorem NonNeg.sublist {coins fewer : List (OutPoint × Coin)} (h : NonNeg coins)
    (hsub : fewer.Sublist coins) : NonNeg fewer := fun utxo hutxo => h utxo (hsub.subset hutxo)

theorem NonNeg.worthOf_take_le {coins : List (OutPoint × Coin)} (h : NonNeg coins) (k : Nat) :
    worthOf (coins.take k) ≤ worthOf coins := by
  have hdrop := (h.sublist (List.drop_sublist k coins)).worthOf_nonneg
  have hsplit : worthOf coins = worthOf (coins.take k) + worthOf (coins.drop k) := by
    rw [← worthOf_append, List.take_append_drop]
  omega

variable {u : UTXOSet} {coins : List (OutPoint × Coin)}

theorem Sane.nonNeg (hu : Sane u) (h : Offered u coins) : NonNeg coins :=
  fun utxo hutxo => toInt_nonneg (hu.nonneg _ _ (h.found utxo hutxo))

/-- **Coins on offer are worth at most all coins.** -/
theorem Sane.worthOf_le (hu : Sane u) (h : Offered u coins) : worthOf coins ≤ MAX_MONEY.toInt := by
  have hvalue : worthOf coins =
      ((coins.map Prod.fst).map fun o => ((u.getCoin o).map fun c => c.value.toInt).getD 0).sum := by
    rw [worthOf, List.map_map]
    refine congrArg List.sum (List.map_congr_left ?_)
    intro utxo hutxo
    simp [h.found utxo hutxo]
  have hplaces : (coins.map Prod.fst).toFinset ⊆ u.places := by
    intro o ho
    obtain ⟨utxo, hutxo, rfl⟩ := List.mem_map.mp (List.mem_toFinset.mp ho)
    exact UTXOSet.mem_places (h.found utxo hutxo)
  rw [hvalue, ← List.sum_toFinset _ h.nodup]
  refine le_trans (Finset.sum_le_sum_of_subset_of_nonneg hplaces ?_) hu.total_le
  intro o _ _
  cases hcoin : u.getCoin o with
  | none => exact le_refl 0
  | some coin => exact toInt_nonneg (hu.nonneg o coin hcoin)

/-- **The balance is right in a sane set**: no sum on the way leaves the range of an `int64_t`. -/
theorem Sane.getBalance (hu : Sane u) {obfuscateKey : List UInt8}
    {records : List (List UInt8 × List UInt8)} (h : StoredAs u.db obfuscateKey records)
    (pubkeyHash : Bytes32) : (u.getBalance obfuscateKey records pubkeyHash).toInt = u.valueAt pubkeyHash := by
  have hoffered : Offered u (u.getUTXOsForAddress obfuscateKey records pubkeyHash) :=
    ⟨UTXOSet.nodup_listCoins h _, fun utxo hutxo => ((UTXOSet.mem_listCoins h).mp hutxo).1⟩
  have hmax : MAX_MONEY.toInt < 2 ^ 63 := by decide
  have hlow := (hu.nonNeg hoffered).worthOf_nonneg
  have hhigh := hu.worthOf_le hoffered
  have hworth : worthOf (u.getUTXOsForAddress obfuscateKey records pubkeyHash) = u.valueAt pubkeyHash :=
    UTXOSet.sum_getUTXOsForAddress h pubkeyHash
  rw [UTXOSet.getBalance_toInt_iff h]
  omega

/-- The walk over the stored records lists what the wallet is offered. -/
theorem getUTXOsForAddresses_perm {obfuscateKey : List UInt8}
    {records : List (List UInt8 × List UInt8)} (h : StoredAs u.db obfuscateKey records)
    (pubkeyHashes : List Bytes32) :
    (getUTXOsForAddresses u pubkeyHashes).Perm
      (u.getUTXOsForAddresses obfuscateKey records pubkeyHashes.toFinset) := by
  obtain ⟨hnodup, hmem⟩ := UTXOSet.getUTXOsForAddresses_spec h pubkeyHashes.toFinset
  refine (List.perm_ext_iff_of_nodup ?_ hnodup.of_map).mpr fun utxo => ?_
  · exact (offered_getUTXOsForAddresses u pubkeyHashes).1.nodup.of_map
  · rw [mem_getUTXOsForAddresses, hmem, List.mem_toFinset]

theorem sane_openDB {db : CoinsDB} (hnonneg : ∀ slot ∈ db.coins.entries, 0 ≤ slot.2.value)
    (htotal : (db.coins.entries.map fun slot => slot.2.value.toInt).sum ≤ MAX_MONEY.toInt) :
    Sane (UTXOSet.openDB db) := by
  have hcoin : ∀ slot ∈ db.coins.entries, (UTXOSet.openDB db).getCoin slot.1 =
      if slot.2.isSpent then none else some slot.2 := by
    intro slot hslot
    have hlookup : db.coins.lookup slot.1 = some slot.2 := AList.mem_lookup_iff.mpr hslot
    have hcache : (UTXOSet.openDB db).cache.lookup slot.1 = none := rfl
    have hdb : (UTXOSet.openDB db).db.coins.lookup slot.1 = some slot.2 := hlookup
    simp only [UTXOSet.getCoin, hcache, hdb]
  refine ⟨?_, ?_⟩
  · intro o coin hgot
    have hplace := UTXOSet.mem_places hgot
    have hkey : o ∈ db.coins.keys := by
      simpa [UTXOSet.places, UTXOSet.openDB] using hplace
    obtain ⟨slot, hslot, rfl⟩ := List.mem_map.mp hkey
    rw [hcoin slot hslot] at hgot
    split at hgot
    · cases hgot
    · cases hgot
      exact hnonneg slot hslot
  · have hplaces : (UTXOSet.openDB db).places = (db.coins.entries.map Sigma.fst).toFinset := by
      simp [UTXOSet.places, UTXOSet.openDB, AList.keys, List.keys]
    have hnodup : (db.coins.entries.map Sigma.fst).Nodup := db.coins.nodupKeys
    rw [UTXOSet.totalValue, hplaces, List.sum_toFinset _ hnodup, List.map_map]
    refine le_trans (List.sum_le_sum ?_) htotal
    intro slot hslot
    have hvalue := toInt_nonneg (hnonneg slot hslot)
    rw [Function.comp_apply, hcoin slot hslot]
    split
    · exact hvalue
    · exact le_refl _

end Worth

/-! ## 3. The selection loop -/

section Selection

/-- What the loop has collected after some coins. -/
def collectedFrom (coins : List (OutPoint × Coin)) : Int64 :=
  coins.foldl (fun collected utxo => collected + utxo.2.value) 0

/-- **What the loop returns**: it stops at the first coin that finds enough collected. -/
structure Selects (needed collected : Int64) (coins selected : List (OutPoint × Coin))
    (total : Int64) : Prop where
  first : ∃ rest, coins = selected ++ rest ∧ (total < needed → rest = [])
  total_eq : total = selected.foldl (fun collected utxo => collected + utxo.2.value) collected
  short : ∀ k < selected.length,
    (selected.take k).foldl (fun collected utxo => collected + utxo.2.value) collected < needed

theorem selects_selectCoins (needed : Int64) : ∀ (collected : Int64) (coins : List (OutPoint × Coin)),
    Selects needed collected coins (selectCoins needed collected coins).1
      (selectCoins needed collected coins).2
  | collected, [] => ⟨⟨[], rfl, fun _ => rfl⟩, rfl, fun k hk => by cases hk⟩
  | collected, utxo :: rest => by
    unfold selectCoins
    split
    case isTrue hge =>
      refine ⟨⟨utxo :: rest, rfl, ?_⟩, rfl, fun k hk => by cases hk⟩
      intro hlt
      exact absurd hge (Int64.not_le.mpr hlt)
    case isFalse hlt =>
      obtain ⟨⟨more, hmore, hrest⟩, htotal, hshort⟩ :=
        selects_selectCoins needed (collected + utxo.2.value) rest
      refine ⟨⟨more, ?_, hrest⟩, htotal, ?_⟩
      · exact congrArg (utxo :: ·) hmore
      · intro k hk
        cases k with
        | zero => exact Int64.not_le.mp hlt
        | succ k => exact hshort k (Nat.lt_of_succ_lt_succ hk)

/-- **Sums of coins do not leave the range of an `int64_t`.** -/
theorem toInt_foldl_value : ∀ {coins : List (OutPoint × Coin)} {collected : Int64},
    0 ≤ collected.toInt → NonNeg coins → collected.toInt + worthOf coins < 2 ^ 63 →
    (coins.foldl (fun collected utxo => collected + utxo.2.value) collected).toInt =
      collected.toInt + worthOf coins
  | [], collected, _, _, _ => by simp
  | utxo :: coins, collected, hcollected, hcoins, hlt => by
    have hvalue := hcoins utxo (List.mem_cons_self ..)
    have hrest : NonNeg coins := fun c hc => hcoins c (List.mem_cons_of_mem _ hc)
    have hnonneg := hrest.worthOf_nonneg
    rw [worthOf_cons] at hlt
    have hadd : (collected + utxo.2.value).toInt = collected.toInt + utxo.2.value.toInt :=
      toInt_add_of_fits (by omega) (by omega)
    rw [List.foldl_cons, toInt_foldl_value (by omega) hrest (by omega), hadd, worthOf_cons]
    omega

end Selection

/-! ## 4. From the call to the transaction -/

section Calls

theorem forall₂_of_mapM {α β ε : Type} {f : α → Except ε β} :
    ∀ {as : List α} {bs : List β}, as.mapM f = .ok bs → List.Forall₂ (fun a b => f a = .ok b) as bs
  | [], bs, h => by
    cases h
    exact .nil
  | a :: as, bs, h => by
    rw [List.mapM_cons] at h
    cases ha : f a with
    | error what => rw [ha] at h; cases h
    | ok b =>
      cases has : as.mapM f with
      | error what => rw [ha, has] at h; cases h
      | ok rest =>
        rw [ha, has] at h
        cases h
        exact .cons ha (forall₂_of_mapM has)

theorem buildTransaction_ok {inputs : List TxInput} {outputs : List TxOutput} {tx : Transaction}
    (h : buildTransaction inputs outputs = .ok tx) :
    tx.inputs = inputs ∧ tx.outputs = outputs ∧ tx.isValid = .ok true := by
  unfold buildTransaction at h
  cases hbuild : Transaction.build CURRENT_VERSION inputs outputs 0 with
  | error what => rw [hbuild] at h; cases h
  | ok built =>
    cases hvalid : built.isValid with
    | error what => rw [hbuild] at h; simp only [bind, Except.bind, hvalid] at h; cases h
    | ok valid =>
      rw [hbuild] at h
      simp only [bind, Except.bind, hvalid] at h
      cases valid with
      | false => cases h
      | true =>
        cases h
        obtain ⟨hinputs, houtputs⟩ := Transaction.build_ok hbuild
        exact ⟨hinputs, houtputs, hvalid⟩

variable [WalletCrypto] {w : WalletManager}

/-- **What a returned transaction went through.** -/
structure Created (w : WalletManager) (toAddress : List UInt8) (amount fee : Int64) (u : UTXOSet)
    (chainHeight : UInt32) (poolTxs : List Transaction) (message : List UInt8) (w' : WalletManager)
    (tx : Transaction) (seed : Bytes64) (toPubkeyHash : Bytes32)
    (selected : List (OutPoint × Coin)) (collected : Int64) (change : List TxOutput) : Prop where
  request : w.checkRequest toAddress amount fee message = .ok (seed, toPubkeyHash)
  selects : Selects (amount + fee) 0 (w.spendable u chainHeight poolTxs) selected collected
  enough : ¬ collected < amount + fee
  inputs : List.Forall₂ (fun utxo input => w.inputFor seed utxo = .ok input) selected tx.inputs
  outputs : tx.outputs = payments amount toPubkeyHash message ++ change
  valid : tx.isValid = .ok true
  changed : ∃ w₁, w.changeOutputs (collected - (amount + fee)) = .ok (w₁, change) ∧
    w' = w₁.hold selected tx.getHash

theorem createTransaction_ret {toAddress : List UInt8} {amount fee : Int64} {u : UTXOSet}
    {chainHeight : UInt32} {poolTxs : List Transaction} {message : List UInt8} {w' : WalletManager}
    {tx : Transaction}
    (h : w.createTransaction toAddress amount fee u chainHeight poolTxs message = (w', .ret tx)) :
    ∃ seed toPubkeyHash selected collected change, Created w toAddress amount fee u chainHeight
      poolTxs message w' tx seed toPubkeyHash selected collected change := by
  unfold createTransaction at h
  split at h
  case h_1 => cases h
  case h_2 seed toPubkeyHash hrequest =>
    dsimp only at h
    have hselects := selects_selectCoins (amount + fee) 0 (w.spendable u chainHeight poolTxs)
    generalize selectCoins (amount + fee) 0 (w.spendable u chainHeight poolTxs) = result at h hselects
    obtain ⟨selected, collected⟩ := result
    split at h
    case isTrue => cases h
    case isFalse henough =>
      split at h
      case h_1 => cases h
      case h_2 inputs hinputs =>
        split at h
        case isTrue => cases h
        case isFalse =>
          split at h
          case h_1 => cases h
          case h_2 w₁ change hchange =>
            split at h
            case h_1 => cases h
            case h_2 built hbuilt =>
              cases h
              obtain ⟨hins, houts, hvalid⟩ := buildTransaction_ok hbuilt
              refine ⟨seed, toPubkeyHash, selected, collected, change, hrequest, hselects, henough,
                ?_, houts, hvalid, w₁, hchange, rfl⟩
              rw [hins]
              exact forall₂_of_mapM hinputs

omit [WalletCrypto] in
theorem checkRequest_ok {toAddress message : List UInt8} {amount fee : Int64} {seed : Bytes64}
    {toPubkeyHash : Bytes32}
    (h : w.checkRequest toAddress amount fee message = .ok (seed, toPubkeyHash)) :
    DUST_THRESHOLD ≤ amount ∧ MIN_TX_FEE ≤ fee ∧ decodeAddress toAddress = .ok toPubkeyHash ∧
      message.length ≤ MAX_OP_RETURN_SIZE ∧ w.unlockedSeed = some seed := by
  unfold checkRequest at h
  split at h
  case isTrue => cases h
  case isFalse hmessage =>
    split at h
    case h_2 => cases h
    case h_1 seed' _ hseed =>
      split at h
      case isTrue => cases h
      case isFalse =>
        split at h
        case isTrue => cases h
        case isFalse =>
          split at h
          case isTrue => cases h
          case isFalse hdust =>
            split at h
            case isTrue => cases h
            case isFalse hfee =>
              cases hdecode : decodeAddress toAddress with
              | error what => rw [hdecode] at h; cases h
              | ok dest =>
                rw [hdecode] at h
                cases h
                exact ⟨Int64.not_lt.mp hdust, Int64.not_lt.mp hfee, rfl, Nat.not_lt.mp hmessage, hseed⟩

theorem inputFor_ok {seed : Bytes64} {utxo : OutPoint × Coin} {input : TxInput}
    (h : w.inputFor seed utxo = .ok input) :
    input.outpoint = utxo.1 ∧ input.noiseProof = [] := by
  unfold inputFor at h
  split at h
  · cases h
  · cases h
    exact ⟨rfl, rfl⟩

theorem map_outpoint_of_inputs {seed : Bytes64} {selected : List (OutPoint × Coin)}
    {inputs : List TxInput}
    (h : List.Forall₂ (fun utxo input => w.inputFor seed utxo = .ok input) selected inputs) :
    inputs.map TxInput.outpoint = selected.map Prod.fst := by
  induction h with
  | nil => rfl
  | cons hinput _ ih => rw [List.map_cons, List.map_cons, (inputFor_ok hinput).1, ih]

/-- **The change** is paid out when it is more than dust. -/
theorem changeOutputs_ok {change : Int64} {w₁ : WalletManager} {outputs : List TxOutput}
    (h : w.changeOutputs change = .ok (w₁, outputs)) :
    (∃ more nextChangeIndex, w₁ = { w with nextChangeIndex, addresses := w.addresses ++ more }) ∧
      (change ≤ DUST_THRESHOLD ∧ outputs = [] ∨
        DUST_THRESHOLD < change ∧ ∃ pubkeyHash, outputs = [TxOutput.ofPubkeyHash change pubkeyHash]) := by
  unfold changeOutputs at h
  split at h
  case isFalse hdust =>
    cases h
    refine ⟨⟨[], w.nextChangeIndex, ?_⟩, .inl ⟨Int64.not_lt.mp hdust, rfl⟩⟩
    rw [List.append_nil]
  case isTrue hdust =>
    cases hnew : w.getChangeAddress with
    | error what => rw [hnew] at h; cases h
    | ok out =>
      rw [hnew] at h
      cases h
      refine ⟨?_, .inr ⟨hdust, out.2.pubkeyHash, rfl⟩⟩
      unfold getChangeAddress at hnew
      split at hnew
      case isTrue => cases hnew
      case isFalse =>
        split at hnew
        case h_2 => cases hnew
        case h_1 =>
          split at hnew
          case isTrue => cases hnew
          case isFalse =>
            cases hnew
            exact ⟨_, _, rfl⟩

omit [WalletCrypto] in
/-- **Exactly the selected outpoints are held** under the new id. -/
theorem lookup_hold (selected : List (OutPoint × Coin)) (builtId : Bytes32) (o : OutPoint) :
    (w.hold selected builtId).heldOutpoints.lookup o =
      if o ∈ selected.map Prod.fst then some builtId else w.heldOutpoints.lookup o := by
  unfold hold
  dsimp only
  generalize w.heldOutpoints = held
  induction selected generalizing held with
  | nil => simp
  | cons utxo selected ih =>
    rw [List.foldl_cons, ih]
    by_cases hmem : o ∈ selected.map Prod.fst
    · simp [hmem]
    · by_cases ho : o = utxo.1
      · subst ho
        simp [AList.lookup_insert]
      · simp [hmem, ho, AList.lookup_insert_ne ho]

end Calls

/-! ## 5. A sound transfer -/

/-- The value of the coins a transaction spends. -/
def valueIn (u : UTXOSet) (tx : Transaction) : Int :=
  (tx.inputs.map fun input => ((u.getCoin input.outpoint).map fun c => c.value.toInt).getD 0).sum

/-- The rule of `CheckTransactionWithUTXO` for one coin at a height. -/
def SpendableAt (coin : Coin) (height : UInt32) : Prop :=
  ¬ (coin.isCoinbase ∧ height < coin.height + COINBASE_MATURITY)

/-- **A sound transfer** of `amount` to `toAddress`, built by `w` and leaving `w'`. -/
structure SoundTransfer (w : WalletManager) (toAddress : List UInt8) (amount fee : Int64)
    (u : UTXOSet) (chainHeight : UInt32) (poolTxs : List Transaction) (w' : WalletManager)
    (tx : Transaction) : Prop where
  distinct : (tx.inputs.map TxInput.outpoint).Nodup
  spends : ∀ input ∈ tx.inputs, ∃ coin, u.getCoin input.outpoint = some coin ∧
    coin.isSpent = false ∧ coin.pubkeyHash ∈ w.mine ∧
    (∀ next : UInt32, next.toNat = chainHeight.toNat + 1 → SpendableAt coin next) ∧
    input.outpoint ∉ w.heldOutpoints ∧ input.outpoint ∉ spentInPool poolTxs
  pays : ∃ toPubkeyHash, decodeAddress toAddress = .ok toPubkeyHash ∧
    TxOutput.ofPubkeyHash amount toPubkeyHash ∈ tx.outputs
  fee_ge : fee.toInt ≤ valueIn u tx - tx.valueOut
  fee_le : valueIn u tx - tx.valueOut ≤ fee.toInt + DUST_THRESHOLD.toInt
  holds : ∀ o, w'.heldOutpoints.lookup o =
    if o ∈ tx.inputs.map TxInput.outpoint then some tx.getHash else w.heldOutpoints.lookup o

/-- **No sum of the selection leaves the range of an `int64_t`**: not the amount with the fee, not
what is collected after any number of coins, and not the change. -/
structure NoOverflow (w : WalletManager) (amount fee : Int64) (u : UTXOSet) (chainHeight : UInt32)
    (poolTxs : List Transaction) : Prop where
  needed : (amount + fee).toInt = amount.toInt + fee.toInt
  collected : ∀ k, (collectedFrom ((w.spendable u chainHeight poolTxs).take k)).toInt =
    worthOf ((w.spendable u chainHeight poolTxs).take k)
  change : ∀ k, (collectedFrom ((w.spendable u chainHeight poolTxs).take k) - (amount + fee)).toInt =
    worthOf ((w.spendable u chainHeight poolTxs).take k) - (amount.toInt + fee.toInt)

section Sound

variable {w : WalletManager} {amount fee : Int64} {u : UTXOSet} {chainHeight : UInt32}
  {poolTxs : List Transaction}

/-- The sums of the selection, once the amount with the fee is right. -/
theorem noOverflow_of_needed (hu : Sane u) (hamount : 0 ≤ amount.toInt) (hfee : 0 ≤ fee.toInt)
    (hneeded : (amount + fee).toInt = amount.toInt + fee.toInt) :
    NoOverflow w amount fee u chainHeight poolTxs := by
  have hmax := toInt_MAX_MONEY
  have hlt := (amount + fee).toInt_lt
  have hoffered := offered_spendable w u chainHeight poolTxs
  have hcollected : ∀ k, (collectedFrom ((w.spendable u chainHeight poolTxs).take k)).toInt =
      worthOf ((w.spendable u chainHeight poolTxs).take k) ∧
      0 ≤ worthOf ((w.spendable u chainHeight poolTxs).take k) ∧
      worthOf ((w.spendable u chainHeight poolTxs).take k) ≤ MAX_MONEY.toInt := by
    intro k
    have htake := hoffered.sublist (List.take_sublist k _)
    have hnonneg := hu.nonNeg htake
    have hle := hu.worthOf_le htake
    have hsum := toInt_foldl_value (le_refl (0 : Int64).toInt) hnonneg (by rw [toInt_zero]; omega)
    rw [toInt_zero, Int.zero_add] at hsum
    exact ⟨hsum, hnonneg.worthOf_nonneg, hle⟩
  refine ⟨hneeded, fun k => (hcollected k).1, fun k => ?_⟩
  obtain ⟨hsum, hnonneg, hle⟩ := hcollected k
  rw [Int64.toInt_sub, hneeded, hsum, Int.bmod_def]
  omega

theorem Selects.take {needed collected : Int64} {coins selected : List (OutPoint × Coin)}
    {total : Int64} (h : Selects needed collected coins selected total) :
    selected = coins.take selected.length := by
  obtain ⟨rest, hrest, _⟩ := h.first
  rw [hrest, List.take_left]

theorem spendableAt_next {coin : Coin} {next : UInt32} (h : isSpendableNow coin chainHeight = true)
    (hnext : next.toNat = chainHeight.toNat + 1) : SpendableAt coin next := by
  rintro ⟨hcoinbase, hlt⟩
  rw [isSpendableNow, hcoinbase] at h
  simp only [Bool.not_true, Bool.false_or, decide_eq_true_eq] at h
  rw [UInt32.lt_iff_toNat_lt] at hlt
  rw [ge_iff_le, UInt32.le_iff_toNat_le] at h
  omega

variable [WalletCrypto] {toAddress message : List UInt8} {w' : WalletManager} {tx : Transaction}

theorem valueIn_eq {seed : Bytes64} {selected : List (OutPoint × Coin)}
    (h : List.Forall₂ (fun utxo input => w.inputFor seed utxo = .ok input) selected tx.inputs)
    (hoffered : Offered u selected) : valueIn u tx = worthOf selected := by
  have hmap : (tx.inputs.map fun input =>
      ((u.getCoin input.outpoint).map fun c => c.value.toInt).getD 0) =
      (tx.inputs.map TxInput.outpoint).map fun o =>
        ((u.getCoin o).map fun c => c.value.toInt).getD 0 := by
    rw [List.map_map]
    rfl
  rw [valueIn, hmap, map_outpoint_of_inputs h, List.map_map, worthOf]
  refine congrArg List.sum (List.map_congr_left ?_)
  intro utxo hutxo
  simp [hoffered.found utxo hutxo]

omit [WalletCrypto] in
theorem valueOut_eq {toPubkeyHash : Bytes32} {change : List TxOutput}
    (h : tx.outputs = payments amount toPubkeyHash message ++ change) :
    tx.valueOut = amount.toInt + (change.map fun out => out.value.toInt).sum := by
  rw [Transaction.valueOut, h]
  unfold payments
  split
  · simp [TxOutput.ofPubkeyHash]
  · simp [TxOutput.ofPubkeyHash]

section Created

variable {seed : Bytes64} {toPubkeyHash : Bytes32} {selected : List (OutPoint × Coin)}
  {collected : Int64} {change : List TxOutput}

theorem Created.offered (h : Created w toAddress amount fee u chainHeight poolTxs message w' tx seed
    toPubkeyHash selected collected change) : Offered u selected := by
  rw [h.selects.take]
  exact (offered_spendable w u chainHeight poolTxs).sublist (List.take_sublist _ _)

theorem Created.eligible (h : Created w toAddress amount fee u chainHeight poolTxs message w' tx seed
    toPubkeyHash selected collected change) {utxo : OutPoint × Coin} (hutxo : utxo ∈ selected) :
    Eligible w chainHeight poolTxs utxo := by
  rw [h.selects.take] at hutxo
  exact eligible_spendable ((List.take_sublist _ _).subset hutxo)

theorem Created.amounts (h : Created w toAddress amount fee u chainHeight poolTxs message w' tx seed
    toPubkeyHash selected collected change) :
    DUST_THRESHOLD.toInt ≤ amount.toInt ∧ MIN_TX_FEE.toInt ≤ fee.toInt := by
  obtain ⟨hdust, hminfee, _⟩ := checkRequest_ok h.request
  exact ⟨Int64.le_iff_toInt_le.mp hdust, Int64.le_iff_toInt_le.mp hminfee⟩

theorem Created.selected_ne_nil (h : Created w toAddress amount fee u chainHeight poolTxs message w' tx
    seed toPubkeyHash selected collected change) : selected ≠ [] := by
  rintro rfl
  have hvalid := h.valid
  have hinputs : tx.inputs = [] := List.forall₂_nil_left_iff.mp h.inputs
  simp [Transaction.isValid, hinputs] at hvalid

/-- **The sums of a selection that led to a transaction are right**, whatever the amount and the fee:
a sum that wraps around is negative, so nothing is selected for it. -/
theorem Created.noOverflow (h : Created w toAddress amount fee u chainHeight poolTxs message w' tx seed
    toPubkeyHash selected collected change) (hu : Sane u) :
    NoOverflow w amount fee u chainHeight poolTxs := by
  obtain ⟨hamount, hfee⟩ := h.amounts
  have hdust : DUST_THRESHOLD.toInt = 1000 := by decide
  have hmin : MIN_TX_FEE.toInt = 1000 := by decide
  have hpos : 0 < (amount + fee).toInt :=
    Int64.lt_iff_toInt_lt.mp (h.selects.short 0 (List.length_pos_iff.mpr h.selected_ne_nil))
  have hamount' := amount.toInt_lt
  have hfee' := fee.toInt_lt
  refine noOverflow_of_needed hu (by omega) (by omega) ?_
  rw [Int64.toInt_add, Int.bmod_def] at hpos ⊢
  omega

/-- **What is paid besides the outputs** is the fee, and the change that is not worth an output. -/
theorem Created.fee_eq (h : Created w toAddress amount fee u chainHeight poolTxs message w' tx seed
    toPubkeyHash selected collected change) (hexact : NoOverflow w amount fee u chainHeight poolTxs) :
    ∃ dust : Int, 0 ≤ dust ∧ dust ≤ DUST_THRESHOLD.toInt ∧
      valueIn u tx - tx.valueOut = fee.toInt + dust := by
  have htake := h.selects.take
  have hcollected : collected =
      collectedFrom ((w.spendable u chainHeight poolTxs).take selected.length) := by
    rw [← htake]
    exact h.selects.total_eq
  have hworth := hexact.collected selected.length
  have hchange := hexact.change selected.length
  rw [← hcollected, ← htake] at hworth hchange
  have henough := Int64.le_iff_toInt_le.mp (Int64.not_lt.mp h.enough)
  rw [hworth, hexact.needed] at henough
  rw [valueIn_eq h.inputs h.offered, valueOut_eq h.outputs]
  obtain ⟨w₁, hw₁, _⟩ := h.changed
  rcases (changeOutputs_ok hw₁).2 with ⟨hle, rfl⟩ | ⟨_, pubkeyHash, rfl⟩
  · have hle := Int64.le_iff_toInt_le.mp hle
    rw [hchange] at hle
    refine ⟨worthOf selected - (amount.toInt + fee.toInt), by omega, hle, ?_⟩
    simp only [List.map_nil, List.sum_nil]
    omega
  · refine ⟨0, le_refl 0, by decide, ?_⟩
    simp only [List.map_cons, List.map_nil, List.sum_cons, List.sum_nil, TxOutput.ofPubkeyHash, hchange]
    omega

/-- **How many coins are selected**: at most `n` exactly when the first `n` coins suffice. -/
theorem Created.length_le_iff (h : Created w toAddress amount fee u chainHeight poolTxs message w' tx
    seed toPubkeyHash selected collected change) (hu : Sane u) (n : Nat) :
    selected.length ≤ n ↔
      amount.toInt + fee.toInt ≤ worthOf ((w.spendable u chainHeight poolTxs).take n) := by
  have hexact := h.noOverflow hu
  have htake := h.selects.take
  have hoffered := offered_spendable w u chainHeight poolTxs
  constructor
  · intro hle
    have henough := Int64.le_iff_toInt_le.mp (Int64.not_lt.mp h.enough)
    have hcollected : collected =
        collectedFrom ((w.spendable u chainHeight poolTxs).take selected.length) := by
      rw [← htake]
      exact h.selects.total_eq
    rw [hexact.needed, hcollected, hexact.collected] at henough
    have hmore := (hu.nonNeg (hoffered.sublist (List.take_sublist n _))).worthOf_take_le selected.length
    rw [List.take_take, Nat.min_eq_left hle] at hmore
    omega
  · intro henough
    by_contra hlt
    have hshort := h.selects.short n (Nat.lt_of_not_le hlt)
    have hfirst : selected.take n = (w.spendable u chainHeight poolTxs).take n := by
      nth_rewrite 1 [htake]
      rw [List.take_take, Nat.min_eq_left (Nat.le_of_lt (Nat.lt_of_not_le hlt))]
    rw [hfirst, Int64.lt_iff_toInt_lt, hexact.needed] at hshort
    have hcollected := hexact.collected n
    unfold collectedFrom at hcollected
    omega

end Created

omit [WalletCrypto] in
theorem noOverflow_of_request {request : Bytes64 × Bytes32} (hu : Sane u) (hamount : amount ≤ MAX_MONEY)
    (hfee : fee ≤ COIN) (hrequest : w.checkRequest toAddress amount fee message = .ok request) :
    NoOverflow w amount fee u chainHeight poolTxs := by
  obtain ⟨hdust, hminfee, _⟩ := checkRequest_ok hrequest
  have hmax := toInt_MAX_MONEY
  have hcoin : COIN.toInt = 100000000 := by decide
  have hdust₀ : DUST_THRESHOLD.toInt = 1000 := by decide
  have hmin₀ : MIN_TX_FEE.toInt = 1000 := by decide
  rw [Int64.le_iff_toInt_le] at hamount hfee hdust hminfee
  exact noOverflow_of_needed hu (by omega) (by omega) (toInt_add_of_fits (by omega) (by omega))

/-- **`CreateTransaction` builds a sound transfer**, and no sum of its selection overflows. -/
theorem soundTransfer (hu : Sane u) (hamount : amount ≤ MAX_MONEY) (hfee : fee ≤ COIN) :
    (∀ w' tx, w.createTransaction toAddress amount fee u chainHeight poolTxs message = (w', .ret tx) →
      SoundTransfer w toAddress amount fee u chainHeight poolTxs w' tx) ∧
    ∀ request, w.checkRequest toAddress amount fee message = .ok request →
      NoOverflow w amount fee u chainHeight poolTxs := by
  refine ⟨?_, fun request => noOverflow_of_request hu hamount hfee⟩
  intro w' tx h
  obtain ⟨seed, toPubkeyHash, selected, collected, change, hcreated⟩ := createTransaction_ret h
  have houtpoints := map_outpoint_of_inputs hcreated.inputs
  obtain ⟨dust, hdust₀, hdust, hpaid⟩ := hcreated.fee_eq (hcreated.noOverflow hu)
  obtain ⟨w₁, hw₁, rfl⟩ := hcreated.changed
  refine ⟨?_, ?_, ?_, by omega, by omega, ?_⟩
  · rw [houtpoints]
    exact hcreated.offered.nodup
  · intro input hinput
    have hmem : input.outpoint ∈ selected.map Prod.fst :=
      houtpoints ▸ List.mem_map_of_mem hinput
    obtain ⟨utxo, hutxo, ho⟩ := List.mem_map.mp hmem
    have heligible := hcreated.eligible hutxo
    rw [← ho]
    exact ⟨utxo.2, hcreated.offered.found utxo hutxo, heligible.unspent, heligible.mine,
      fun next => spendableAt_next heligible.mature, heligible.free, heligible.unclaimed⟩
  · refine ⟨toPubkeyHash, (checkRequest_ok hcreated.request).2.2.1, ?_⟩
    rw [hcreated.outputs]
    exact List.mem_append_left _ (List.mem_cons_self ..)
  · intro o
    obtain ⟨more, nextChangeIndex, rfl⟩ := (changeOutputs_ok hw₁).1
    rw [lookup_hold, houtpoints]

end Sound

/-! ## 6. A purse -/

section Purse

/-- Keys that are no keys. -/
@[reducible]
def plainCrypto : WalletCrypto where
  decrypt _ _ _ _ _ := none
  entropyToSeed _ := none
  masterPubkey _ := FixedBytes.zero
  deriveKeyAtIndex _ _ _ := FixedBytes.zero
  getPublicKey _ :=
    FixedBytes.ofNat 32 0x3b6a27bcceb6a42d62a3a8d02a6f0d73653215771de243a63ac048a18b59da29
  sign _ _ := FixedBytes.zero
  decryptNoise _ _ := none
  mnemonicFromData _ := none
  encrypt _ _ _ _ := none
  length_encrypt h := by cases h

def zerosFile : NoiseFile :=
  { leaves := List.replicate NOISE_LEAF_COUNT.toNat FixedBytes.zero, nextLeaf := 0, used := [] }

theorem length_zerosFile : zerosFile.leaves.length = NOISE_LEAF_COUNT.toNat := List.length_replicate

def zerosKps : Bytes32 :=
  FixedBytes.ofNat 32 0x799881750019ca39515941a00231729514ca4029498a0c675e9d66a0f4340103

/-- The hash that binds the public key of `plainCrypto` to that noise file. -/
def payerHash : Bytes32 :=
  FixedBytes.ofNat 32 0x3b083e127161562a3ecc54307134221d68951710c4f4a60359ea691d7132be74

theorem noiseBoundHash_payer :
    Transaction.noiseBoundHash (plainCrypto.getPublicKey FixedBytes.zero) zerosKps = payerHash := by
  simp only [Transaction.noiseBoundHash, sha256_eq]
  decide +kernel

def payer : WalletManager :=
  { fresh with
    locked := false
    initialized := true
    unlockedSeed := some FixedBytes.zero
    addresses :=
      [{ address := buildAddress payerHash, pubkeyHash := payerHash, keyIndex := 0, label := []
         isChange := false }]
    noiseLoaded := true
    noiseKps := zerosKps
    noiseFile := some zerosFile }

/-- The address of the hash 1. -/
def payee : List UInt8 := "279Zpep483KUT5BGv8UyUanZDmKhTEoty6LZ3whaodDoHet152h".toUTF8.toList

theorem decodeAddress_payee : decodeAddress payee = .ok (FixedBytes.ofNat 32 1) := by
  simp only [decodeAddress, sha256_eq]
  decide +kernel

/-- Coins of the payer, all of one transaction. -/
def purse (values : List Int64) : UTXOSet :=
  UTXOSet.openDB
    { CoinsDB.empty with
      coins := (values.zipIdx.map fun v =>
        (⟨{ txHash := FixedBytes.ofNat 32 1, index := UInt32.ofNat v.2 },
          Coin.unspent v.1 payerHash 1 false⟩ : Sigma fun _ : OutPoint => Coin)).toAList }

/-- The transfer of `amount` that spends the first `n` coins of a purse. -/
def transfer (n : Nat) (amount : Int64) : Transaction where
  version := CURRENT_VERSION
  inputs := ((List.range n).take Transaction.MAX_INPUTS).map fun i =>
    { prevTxHash := FixedBytes.ofNat 32 1
      outputIndex := UInt32.ofNat i
      pubkey := plainCrypto.getPublicKey FixedBytes.zero
      signature := FixedBytes.zero
      kps := zerosKps
      noiseProof := [] }
  outputs := [TxOutput.ofPubkeyHash amount (FixedBytes.ofNat 32 1)]
  locktime := 0
  inputs_le := by simp
  outputs_le := Transaction.one_le_MAX_OUTPUTS

theorem checkRequest_one_coin : payer.checkRequest payee 1000 1000 [] =
    .ok (FixedBytes.zero, FixedBytes.ofNat 32 1) := by
  rw [checkRequest, decodeAddress_payee]
  decide +kernel

theorem createTransaction_one_coin :
    (@createTransaction plainCrypto payer payee 1000 1000 (purse [2000]) 0 [] []).2 =
      .ret (transfer 1 1000) := by
  decide +kernel

theorem sane_one_coin : Sane (purse [2000]) := sane_openDB (by decide +kernel) (by decide +kernel)

/-- One coin of 2000 pays 1000 and the fee. -/
theorem soundTransfer_one_coin :
    (∃ w', @createTransaction plainCrypto payer payee 1000 1000 (purse [2000]) 0 [] [] =
        (w', .ret (transfer 1 1000)) ∧
      SoundTransfer payer payee 1000 1000 (purse [2000]) 0 [] w' (transfer 1 1000)) ∧
    NoOverflow payer 1000 1000 (purse [2000]) 0 [] := by
  have hcall : @createTransaction plainCrypto payer payee 1000 1000 (purse [2000]) 0 [] [] =
      ((@createTransaction plainCrypto payer payee 1000 1000 (purse [2000]) 0 [] []).1,
        .ret (transfer 1 1000)) := Prod.ext rfl createTransaction_one_coin
  obtain ⟨htransfer, hexact⟩ := @soundTransfer payer 1000 1000 (purse [2000]) 0 [] plainCrypto payee []
    sane_one_coin (by decide) (by decide)
  exact ⟨⟨_, hcall, htransfer _ _ hcall⟩, hexact _ checkRequest_one_coin⟩

end Purse

end WalletManager

end Moneu
