/-
# Queries by address

`GetBalance`, `GetUTXOsForAddress` and `GetUTXOsForAddresses` walk the cache and then the WHOLE database.  The
database is walked as it is stored: keys and values are bytes, in the order of the keys, and there are other
records between the coins.  `GetKey<OutPoint>` takes a key of 36 bytes for the key of a coin; the other keys have
1, 18 or 41 bytes.

Here the walk is modelled on these bytes, whatever the obfuscation key, the padding of the stored objects and the
values of the other records are (`StoredAs`).  The lists are right in every state; the balance is the sum as far
as a sum fits into a machine word (`queries_match_coins`).
-/
import Mathlib.Algebra.Order.BigOperators.Group.Finset
import Moneu.Lib.Overlay
import Moneu.Storage.FailedFlush

namespace Moneu

open Decoder

/-! ## 1. Records as bytes -/

def DataStream.xor (key data : List UInt8) : List UInt8 :=
  if key.isEmpty then data else data.mapIdx fun i b => b ^^^ key.getD (i % key.length) 0

theorem DataStream.xor_xor (key data : List UInt8) : xor key (xor key data) = data := by
  unfold xor
  split
  · rfl
  · rw [List.mapIdx_mapIdx]
    refine (List.mapIdx_eq_iff.mpr fun i => ?_)
    cases data[i]? with
    | none => rfl
    | some b => simp [UInt8.xor_assoc]

/-- What `operator>>` throws for a record that is too short. -/
def DataStream.pastTheEnd : String := "DataStream: read past the end of the record"

def SIZEOF_OUTPOINT : Nat := 36

/-- `operator>>` for an `OutPoint`. -/
def OutPoint.read : Decoder OutPoint := do
  Decoder.require SIZEOF_OUTPOINT DataStream.pastTheEnd
  let txHash ← Decoder.array 32
  let index ← Decoder.le32
  return { txHash, index }

/-- `sizeof(Coin)`: two bytes of padding at the end. -/
def SIZEOF_COIN : Nat := 48

/-- The byte of a `bool`. -/
def boolByte (b : Bool) : UInt8 := if b then 1 else 0

/-- The object `Coin` byte by byte; nothing is said about the padding. -/
def Coin.object (coin : Coin) (padding : FixedBytes 2) : List UInt8 :=
  writeLE64 coin.value.toUInt64 ++ coin.pubkeyHash.data ++ writeLE32 coin.height ++
    [boolByte coin.isCoinbase, boolByte coin.isSpent] ++ padding.data

/-- `operator>>` for a `Coin`. -/
def Coin.read : Decoder Coin := do
  Decoder.require SIZEOF_COIN DataStream.pastTheEnd
  let value ← Decoder.le64
  let pubkeyHash ← Decoder.array 32
  let height ← Decoder.le32
  let isCoinbase ← Decoder.u8
  let isSpent ← Decoder.u8
  let _padding ← Decoder.vec 2
  return { value := value.toInt64, pubkeyHash, height, isCoinbase := isCoinbase != 0, isSpent := isSpent != 0 }

namespace DBIterator

def getKeyOutPoint (slKey : List UInt8) : Option OutPoint :=
  if slKey.length ≠ SIZEOF_OUTPOINT then none else (OutPoint.read slKey).toOption.map Prod.fst

def getValueCoin (obfuscateKey slValue : List UInt8) : Option Coin :=
  (Coin.read (DataStream.xor obfuscateKey slValue)).toOption.map Prod.fst

/-- The beginning of each turn of the walk: the record is a coin, or it is passed over. -/
def coinRecord (obfuscateKey : List UInt8) (record : List UInt8 × List UInt8) : Option (OutPoint × Coin) :=
  match getKeyOutPoint record.1 with
  | none => none
  | some outpoint =>
    match getValueCoin obfuscateKey record.2 with
    | none => none
    | some coin => some (outpoint, coin)

end DBIterator

theorem OutPoint.decodes_read (o : OutPoint) : Decodes OutPoint.read o.dbKey o := by
  have hindex := (Decodes.le32 o.index).bind (f := fun index => pure (OutPoint.mk o.txHash index))
    (Decodes.pure o)
  rw [List.append_nil] at hindex
  refine Decodes.require (by simp [OutPoint.dbKey, SIZEOF_OUTPOINT]) ?_
  exact (Decodes.array o.txHash).bind hindex

theorem Coin.decodes_read (coin : Coin) (padding : FixedBytes 2) :
    Decodes Coin.read (coin.object padding) coin := by
  have hbool : ∀ b : Bool, (boolByte b != 0) = b := by decide
  have hvec : Decodes (Decoder.vec 2) padding.data padding.data := by
    have hlen := padding.length_data
    have hvec := Decodes.vec padding.data
    rwa [hlen] at hvec
  have hlast := hvec.bind (f := fun _ => pure
    { value := coin.value.toUInt64.toInt64, pubkeyHash := coin.pubkeyHash, height := coin.height,
      isCoinbase := boolByte coin.isCoinbase != 0, isSpent := boolByte coin.isSpent != 0 })
    (b := coin) (by
      rw [hbool, hbool]
      exact Decodes.pure coin)
  rw [List.append_nil] at hlast
  unfold Coin.object
  simp only [List.append_assoc]
  refine Decodes.require (by simp [SIZEOF_COIN]) ?_
  refine (Decodes.le64 coin.value.toUInt64).bind ?_
  refine (Decodes.array coin.pubkeyHash).bind ?_
  refine (Decodes.le32 coin.height).bind ?_
  refine (Decodes.u8 (boolByte coin.isCoinbase)).bind ?_
  exact (Decodes.u8 (boolByte coin.isSpent)).bind hlast

namespace DBIterator

theorem getKeyOutPoint_dbKey (o : OutPoint) : getKeyOutPoint o.dbKey = some o := by
  have hlen : o.dbKey.length = SIZEOF_OUTPOINT := by simp [OutPoint.dbKey, SIZEOF_OUTPOINT]
  have hread := o.decodes_read []
  rw [List.append_nil] at hread
  rw [getKeyOutPoint, if_neg (not_not.mpr hlen), hread]
  rfl

theorem coinRecord_stored (obfuscateKey : List UInt8) (o : OutPoint) (coin : Coin)
    (padding : FixedBytes 2) :
    coinRecord obfuscateKey (o.dbKey, DataStream.xor obfuscateKey (coin.object padding)) =
      some (o, coin) := by
  have hread := coin.decodes_read padding []
  rw [List.append_nil] at hread
  have hvalue : getValueCoin obfuscateKey (DataStream.xor obfuscateKey (coin.object padding)) = some coin := by
    rw [getValueCoin, DataStream.xor_xor, hread]
    rfl
  unfold coinRecord
  dsimp only
  rw [getKeyOutPoint_dbKey, hvalue]

end DBIterator

/-! ## 2. A database as its records -/

/-- The records that the database `db` consists of, as an iterator walks them: in the order of the keys, a coin
as its object under the obfuscation key.  The values of the other records are not told. -/
structure StoredAs (db : CoinsDB) (obfuscateKey : List UInt8) (records : List (List UInt8 × List UInt8)) :
    Prop where
  keys : records.map Prod.fst = db.keys.sort (· ≤ ·)
  coin : ∀ o c, db.coins.lookup o = some c → ∃ padding,
    (o.dbKey, DataStream.xor obfuscateKey (c.object padding)) ∈ records

theorem CoinsDB.key_of_length {db : CoinsDB} {key : List UInt8} (h : key ∈ db.keys)
    (hlen : key.length = SIZEOF_OUTPOINT) : ∃ o ∈ db.coins, key = o.dbKey := by
  simp only [CoinsDB.keys, Finset.mem_union, List.mem_toFinset, List.mem_map, Finset.mem_image,
    Finset.mem_singleton] at h
  rcases h with (((⟨o, ho, rfl⟩ | ⟨leaf, _, rfl⟩) | ⟨_, _, rfl⟩) | ⟨_, _, rfl⟩) | rfl
  · exact ⟨o, AList.mem_keys.mpr ho, rfl⟩
  · simp [makeNoiseLeafDBKey, SIZEOF_OUTPOINT] at hlen
  · simp [SIZEOF_OUTPOINT] at hlen
  · simp [SIZEOF_OUTPOINT] at hlen
  · have hname : OBFUSCATE_KEY_KEY.length = 14 := by decide +kernel
    simp [hname, SIZEOF_OUTPOINT] at hlen

namespace StoredAs

variable {db : CoinsDB} {obfuscateKey : List UInt8} {records : List (List UInt8 × List UInt8)}

open DBIterator

/-- A record that is read as a coin is stored under the key of the coin. -/
theorem key_of_coinRecord (h : StoredAs db obfuscateKey records) {record : List UInt8 × List UInt8}
    (hmem : record ∈ records) {o : OutPoint} {c : Coin}
    (hread : coinRecord obfuscateKey record = some (o, c)) : record.1 = o.dbKey ∧ o ∈ db.coins := by
  have hkey : record.1 ∈ db.keys := by
    rw [← Finset.mem_sort (· ≤ ·), ← h.keys]
    exact List.mem_map.mpr ⟨record, hmem, rfl⟩
  unfold coinRecord at hread
  split at hread
  · cases hread
  · rename_i o' ho'
    split at hread
    · cases hread
    · cases hread
      have hlen : record.1.length = SIZEOF_OUTPOINT := by
        by_contra hne
        rw [getKeyOutPoint, if_pos hne] at ho'
        cases ho'
      obtain ⟨o'', hin, heq⟩ := CoinsDB.key_of_length hkey hlen
      rw [heq, getKeyOutPoint_dbKey] at ho'
      cases ho'
      exact ⟨heq, hin⟩

theorem mem_coins (h : StoredAs db obfuscateKey records) {o : OutPoint} {c : Coin} :
    (o, c) ∈ records.filterMap (coinRecord obfuscateKey) ↔ db.coins.lookup o = some c := by
  have hnodup : (records.map Prod.fst).Nodup := h.keys ▸ Finset.sort_nodup ..
  rw [List.mem_filterMap]
  constructor
  · rintro ⟨record, hmem, hread⟩
    obtain ⟨hkey, hin⟩ := h.key_of_coinRecord hmem hread
    obtain ⟨c', hc'⟩ := Option.isSome_iff_exists.mp (AList.lookup_isSome.mpr hin)
    obtain ⟨padding, hstored⟩ := h.coin o c' hc'
    -- no key is there twice
    have heq : record = (o.dbKey, DataStream.xor obfuscateKey (c'.object padding)) :=
      List.inj_on_of_nodup_map hnodup hmem hstored hkey
    rw [heq, coinRecord_stored] at hread
    cases hread
    exact hc'
  · intro hc
    obtain ⟨padding, hstored⟩ := h.coin o c hc
    exact ⟨_, hstored, coinRecord_stored ..⟩

theorem nodup_coins (h : StoredAs db obfuscateKey records) :
    ((records.filterMap (coinRecord obfuscateKey)).map Prod.fst).Nodup := by
  have hnodup : (records.map Prod.fst).Nodup := h.keys ▸ Finset.sort_nodup ..
  rw [List.Nodup, List.pairwise_map, List.pairwise_filterMap]
  refine (List.pairwise_map.mp hnodup).imp_of_mem fun hmem hmem' hne => ?_
  rintro ⟨o, c⟩ hread ⟨o', c'⟩ hread' heq
  obtain rfl : o = o' := heq
  exact hne ((h.key_of_coinRecord hmem hread).1.trans (h.key_of_coinRecord hmem' hread').1.symm)

end StoredAs

/-! ## 3. The three queries -/

namespace UTXOSet

open DBIterator

/-- The turn of a query over the cache. -/
def cachedCoin (mine : Bytes32 → Bool) (slot : Slot) : Option (OutPoint × Coin) :=
  if !slot.2.coin.isSpent && mine slot.2.coin.pubkeyHash then some (slot.1, slot.2.coin) else none

/-- The turn of a query over the database. -/
def storedCoin (u : UTXOSet) (obfuscateKey : List UInt8) (mine : Bytes32 → Bool)
    (record : List UInt8 × List UInt8) : Option (OutPoint × Coin) :=
  match coinRecord obfuscateKey record with
  | none => none
  | some (outpoint, coin) =>
    if !coin.isSpent && mine coin.pubkeyHash && outpoint ∉ u.cache then some (outpoint, coin) else none

/-- The two loops of `GetUTXOsForAddress` and `GetUTXOsForAddresses`.  The order of the cache is the order in
which the hash table is walked. -/
def listCoins (u : UTXOSet) (obfuscateKey : List UInt8) (records : List (List UInt8 × List UInt8))
    (mine : Bytes32 → Bool) : List (OutPoint × Coin) :=
  u.cache.entries.filterMap (cachedCoin mine) ++ records.filterMap (u.storedCoin obfuscateKey mine)

def getUTXOsForAddress (u : UTXOSet) (obfuscateKey : List UInt8)
    (records : List (List UInt8 × List UInt8)) (pubkeyHash : Bytes32) : List (OutPoint × Coin) :=
  u.listCoins obfuscateKey records fun hash => hash = pubkeyHash

def getUTXOsForAddresses (u : UTXOSet) (obfuscateKey : List UInt8)
    (records : List (List UInt8 × List UInt8)) (pubkeyHashes : Finset Bytes32) : List (OutPoint × Coin) :=
  if pubkeyHashes = ∅ then [] else u.listCoins obfuscateKey records fun hash => hash ∈ pubkeyHashes

/-- `GetBalance`; the additions are those of `int64_t`. -/
def getBalance (u : UTXOSet) (obfuscateKey : List UInt8) (records : List (List UInt8 × List UInt8))
    (pubkeyHash : Bytes32) : Int64 :=
  let balance := u.cache.entries.foldl (fun balance slot =>
    if !slot.2.coin.isSpent && slot.2.coin.pubkeyHash = pubkeyHash then balance + slot.2.coin.value
    else balance) 0
  records.foldl (fun balance record =>
    match coinRecord obfuscateKey record with
    | none => balance
    | some (outpoint, coin) =>
      if !coin.isSpent && coin.pubkeyHash = pubkeyHash then
        if outpoint ∉ u.cache then balance + coin.value else balance
      else balance) balance

/-- The cache as rows. -/
def cacheRows (u : UTXOSet) : List (OutPoint × Option Coin) :=
  u.cache.entries.map fun slot => (slot.1, slot.2.coin.live)

/-- The database as rows, in the order of the walk. -/
def storedRows (obfuscateKey : List UInt8) (records : List (List UInt8 × List UInt8)) :
    List (OutPoint × Option Coin) :=
  (records.filterMap (coinRecord obfuscateKey)).map fun found => (found.1, found.2.live)

theorem keys_cacheRows (u : UTXOSet) : Overlay.keys u.cacheRows = u.cache.keys := by
  rw [Overlay.keys, cacheRows, List.map_map]
  rfl

theorem keys_storedRows (obfuscateKey : List UInt8) (records : List (List UInt8 × List UInt8)) :
    Overlay.keys (storedRows obfuscateKey records) =
      (records.filterMap (coinRecord obfuscateKey)).map Prod.fst := by
  rw [Overlay.keys, storedRows, List.map_map]
  rfl

theorem mem_cacheRows {u : UTXOSet} {o : OutPoint} {v : Option Coin} :
    (o, v) ∈ u.cacheRows ↔ ∃ entry, u.cache.lookup o = some entry ∧ entry.coin.live = v := by
  rw [cacheRows, List.mem_map]
  constructor
  · rintro ⟨⟨o', entry⟩, hslot, heq⟩
    cases heq
    exact ⟨entry, AList.mem_lookup_iff.mpr hslot, rfl⟩
  · rintro ⟨entry, hlookup, rfl⟩
    exact ⟨⟨o, entry⟩, AList.mem_lookup_iff.mp hlookup, rfl⟩

section Queries

variable {u : UTXOSet} {obfuscateKey : List UInt8} {records : List (List UInt8 × List UInt8)}

theorem mem_storedRows (h : StoredAs u.db obfuscateKey records) {o : OutPoint} {v : Option Coin} :
    (o, v) ∈ storedRows obfuscateKey records ↔ ∃ coin, u.db.coins.lookup o = some coin ∧ coin.live = v := by
  rw [storedRows, List.mem_map]
  constructor
  · rintro ⟨⟨o', coin⟩, hmem, heq⟩
    cases heq
    exact ⟨coin, h.mem_coins.mp hmem, rfl⟩
  · rintro ⟨coin, hlookup, rfl⟩
    exact ⟨(o, coin), h.mem_coins.mpr hlookup, rfl⟩

/-- **`GetCoin` looks up the cache over the database**, in whatever order the rows of the database come. -/
theorem getCoin_eq_some_iff {rows : List (OutPoint × Option Coin)}
    (hrows : ∀ {o v}, (o, v) ∈ rows ↔ ∃ coin, u.db.coins.lookup o = some coin ∧ coin.live = v)
    (o : OutPoint) (c : Coin) : u.getCoin o = some c ↔ Overlay.Shows u.cacheRows rows o c := by
  have hkeys : o ∉ Overlay.keys u.cacheRows ↔ u.cache.lookup o = none := by
    rw [keys_cacheRows, AList.lookup_eq_none]
    rfl
  rw [Overlay.Shows, mem_cacheRows, hrows, hkeys]
  cases hcache : u.cache.lookup o with
  | some entry =>
    rw [getCoin_of_cached hcache]
    simp only [Option.some.injEq, exists_eq_left', reduceCtorEq, false_and, or_false]
  | none =>
    rw [getCoin_of_not_cached hcache, Option.bind_eq_some_iff]
    simp only [reduceCtorEq, false_and, exists_false, true_and, false_or]

theorem pick_live (mine : Bytes32 → Bool) (o : OutPoint) (coin : Coin) :
    Overlay.pick (fun coin => mine coin.pubkeyHash) (o, coin.live) =
      if !coin.isSpent && mine coin.pubkeyHash then some (o, coin) else none := by
  unfold Overlay.pick Coin.live
  cases coin.isSpent with
  | true => rfl
  | false =>
    cases hmine : mine coin.pubkeyHash with
    | true => simp [Option.filter_some, hmine]
    | false => simp [Option.filter_some, hmine]

/-- **The two loops are a scan of the cache over the database.** -/
theorem listCoins_eq (u : UTXOSet) (obfuscateKey : List UInt8)
    (records : List (List UInt8 × List UInt8)) (mine : Bytes32 → Bool) :
    u.listCoins obfuscateKey records mine =
      Overlay.scan (fun coin => mine coin.pubkeyHash) u.cacheRows (storedRows obfuscateKey records) := by
  unfold listCoins Overlay.scan Overlay.bare
  rw [keys_cacheRows]
  congr 1
  · rw [cacheRows, List.filterMap_map]
    exact List.filterMap_congr fun slot _ => (pick_live mine slot.1 slot.2.coin).symm
  · rw [storedRows, List.filter_map, List.filterMap_map, List.filterMap_filter, List.filterMap_filterMap]
    refine List.filterMap_congr fun record _ => ?_
    unfold storedCoin
    cases coinRecord obfuscateKey record with
    | none => rfl
    | some found =>
      obtain ⟨o, coin⟩ := found
      have hmem : o ∈ u.cache ↔ o ∈ u.cache.keys := Iff.rfl
      simp only [Option.bind_some, Function.comp_apply, pick_live]
      by_cases ho : o ∈ u.cache.keys
      · simp [hmem, ho]
      · simp [hmem, ho]

/-- **`GetBalance` adds up what `GetUTXOsForAddress` lists.** -/
theorem getBalance_eq (u : UTXOSet) (obfuscateKey : List UInt8)
    (records : List (List UInt8 × List UInt8)) (pubkeyHash : Bytes32) :
    u.getBalance obfuscateKey records pubkeyHash =
      (u.getUTXOsForAddress obfuscateKey records pubkeyHash).foldl
        (fun balance found => balance + found.2.value) 0 := by
  unfold getBalance getUTXOsForAddress listCoins
  dsimp only
  rw [List.foldl_append, List.foldl_filterMap, List.foldl_filterMap]
  congr 1
  · funext balance record
    unfold storedCoin
    cases coinRecord obfuscateKey record with
    | none => rfl
    | some found =>
      obtain ⟨o, coin⟩ := found
      dsimp only
      by_cases hmine : (!coin.isSpent && decide (coin.pubkeyHash = pubkeyHash)) = true
      · by_cases ho : o ∈ u.cache
        · simp [hmine, ho]
        · simp [hmine, ho]
      · simp [hmine]
  · congr 1
    funext balance slot
    unfold cachedCoin
    split <;> rfl

theorem foldl_add_value (found : List (OutPoint × Coin)) (balance : Int64) :
    found.foldl (fun balance found => balance + found.2.value) balance =
      Int64.ofInt (balance.toInt + (found.map fun found => found.2.value.toInt).sum) := by
  induction found generalizing balance with
  | nil => simp
  | cons head tail ih =>
    rw [List.foldl_cons, ih, List.map_cons, List.sum_cons, ← add_assoc, Int64.ofInt_add, Int64.ofInt_toInt,
      Int64.ofInt_add _ (List.sum _), Int64.ofInt_add, Int64.ofInt_toInt, Int64.ofInt_toInt]

/-- What the coins at a pubkey hash are worth, over all outpoints. -/
noncomputable def valueAt (u : UTXOSet) (pubkeyHash : Bytes32) : Int :=
  finsum fun o => ((u.getCoin o).filter fun coin => coin.pubkeyHash = pubkeyHash).elim 0
    fun coin => coin.value.toInt

theorem nodup_listCoins (h : StoredAs u.db obfuscateKey records) (mine : Bytes32 → Bool) :
    ((u.listCoins obfuscateKey records mine).map Prod.fst).Nodup := by
  rw [listCoins_eq]
  refine Overlay.nodup_scan ?_ ?_
  · rw [keys_cacheRows]
    exact u.cache.nodupKeys
  · rw [keys_storedRows]
    exact h.nodup_coins

theorem mem_listCoins (h : StoredAs u.db obfuscateKey records) {mine : Bytes32 → Bool} {o : OutPoint}
    {coin : Coin} : (o, coin) ∈ u.listCoins obfuscateKey records mine ↔
      u.getCoin o = some coin ∧ mine coin.pubkeyHash = true := by
  rw [listCoins_eq, Overlay.mem_scan, getCoin_eq_some_iff (mem_storedRows h)]

theorem getUTXOsForAddresses_spec (h : StoredAs u.db obfuscateKey records) (pubkeyHashes : Finset Bytes32) :
    ((u.getUTXOsForAddresses obfuscateKey records pubkeyHashes).map Prod.fst).Nodup ∧
      ∀ o coin, (o, coin) ∈ u.getUTXOsForAddresses obfuscateKey records pubkeyHashes ↔
        u.getCoin o = some coin ∧ coin.pubkeyHash ∈ pubkeyHashes := by
  unfold getUTXOsForAddresses
  split
  · rename_i hempty
    subst hempty
    simp
  · exact ⟨nodup_listCoins h _, fun o coin => by rw [mem_listCoins h, decide_eq_true_eq]⟩

theorem sum_getUTXOsForAddress (h : StoredAs u.db obfuscateKey records) (pubkeyHash : Bytes32) :
    ((u.getUTXOsForAddress obfuscateKey records pubkeyHash).map fun found => found.2.value.toInt).sum =
      u.valueAt pubkeyHash := by
  rw [getUTXOsForAddress, listCoins_eq]
  refine Overlay.sum_scan ?_ ?_ (getCoin_eq_some_iff (mem_storedRows h)) fun coin => coin.value.toInt
  · rw [keys_cacheRows]
    exact u.cache.nodupKeys
  · rw [keys_storedRows]
    exact h.nodup_coins

/-- **The balance is the value of the coins, as a machine word.** -/
theorem getBalance_ofInt (h : StoredAs u.db obfuscateKey records) (pubkeyHash : Bytes32) :
    u.getBalance obfuscateKey records pubkeyHash = Int64.ofInt (u.valueAt pubkeyHash) := by
  rw [getBalance_eq, foldl_add_value, sum_getUTXOsForAddress h, Int64.toInt_zero, zero_add]

theorem getBalance_toInt_iff (h : StoredAs u.db obfuscateKey records) (pubkeyHash : Bytes32) :
    (u.getBalance obfuscateKey records pubkeyHash).toInt = u.valueAt pubkeyHash ↔
      -2 ^ 63 ≤ u.valueAt pubkeyHash ∧ u.valueAt pubkeyHash < 2 ^ 63 := by
  have hsize : Int64.size = 2 ^ 64 := rfl
  rw [getBalance_ofInt h, Int64.toInt_ofInt, Int.bmod_def, hsize]
  omega

/-- **Queries by address match the coins**, in any state and however the database is stored.
`GetUTXOsForAddress` and `GetUTXOsForAddresses` list exactly the coins that `GetCoin` returns, each of them
once.  `GetBalance` is what they are worth if that fits into an `int64_t`, and only then. -/
theorem queries_match_coins (h : StoredAs u.db obfuscateKey records) :
    (∀ pubkeyHash, ((u.getUTXOsForAddress obfuscateKey records pubkeyHash).map Prod.fst).Nodup ∧
      ∀ o coin, (o, coin) ∈ u.getUTXOsForAddress obfuscateKey records pubkeyHash ↔
        u.getCoin o = some coin ∧ coin.pubkeyHash = pubkeyHash) ∧
      (∀ pubkeyHashes, ((u.getUTXOsForAddresses obfuscateKey records pubkeyHashes).map Prod.fst).Nodup ∧
        ∀ o coin, (o, coin) ∈ u.getUTXOsForAddresses obfuscateKey records pubkeyHashes ↔
          u.getCoin o = some coin ∧ coin.pubkeyHash ∈ pubkeyHashes) ∧
      ∀ pubkeyHash, (u.getBalance obfuscateKey records pubkeyHash).toInt = u.valueAt pubkeyHash ↔
        -2 ^ 63 ≤ u.valueAt pubkeyHash ∧ u.valueAt pubkeyHash < 2 ^ 63 := by
  refine ⟨fun pubkeyHash => ⟨nodup_listCoins h _, fun o coin => ?_⟩, getUTXOsForAddresses_spec h,
    getBalance_toInt_iff h⟩
  rw [getUTXOsForAddress, mem_listCoins h, decide_eq_true_eq]

end Queries

/-! ## 4. Coins that are worth too much -/

/-- The records of a database, with zeros for the padding. -/
def records (db : CoinsDB) (obfuscateKey : List UInt8) : List (List UInt8 × List UInt8) :=
  (db.keys.sort (· ≤ ·)).map fun key =>
    (key, match (getKeyOutPoint key).bind fun o => db.coins.lookup o with
      | some coin => DataStream.xor obfuscateKey (coin.object FixedBytes.zero)
      | none => [])

theorem storedAs_records (db : CoinsDB) (obfuscateKey : List UInt8) :
    StoredAs db obfuscateKey (records db obfuscateKey) where
  keys := by
    rw [records, List.map_map]
    exact List.map_id _
  coin := by
    intro o c hc
    refine ⟨FixedBytes.zero, List.mem_map.mpr ⟨o.dbKey, ?_, ?_⟩⟩
    · have hin : o ∈ db.coins.keys := AList.mem_keys.mp (AList.lookup_isSome.mp (by rw [hc]; rfl))
      rw [Finset.mem_sort]
      simp only [CoinsDB.keys, Finset.mem_union, List.mem_toFinset]
      exact .inl (.inl (.inl (.inl (List.mem_map.mpr ⟨o, hin, rfl⟩))))
    · rw [getKeyOutPoint_dbKey, Option.bind_some, hc]

def richHash : Bytes32 := ⟨List.replicate 32 1, by simp⟩

/-- A coinbase with two outputs of `value` each. -/
def richTx (value : Int64) : Transaction where
  version := 1
  inputs := []
  outputs := [TxOutput.ofPubkeyHash value richHash, TxOutput.ofPubkeyHash value richHash]
  locktime := 0
  inputs_le := by simp [Transaction.MAX_INPUTS]
  outputs_le := by simp [Transaction.MAX_OUTPUTS]

theorem newCoins_rich {value : Int64} (hpos : 0 < value) (txHash : Bytes32) :
    newCoins txHash 0 true 0 (richTx value).outputs =
      [(⟨txHash, 0⟩, Coin.unspent value richHash 0 true), (⟨txHash, 1⟩, Coin.unspent value richHash 0 true)] := by
  have hspendable : (TxOutput.ofPubkeyHash value richHash).isUnspendable = false :=
    Script.isUnspendable_createPayToPubkeyHash richHash
  have hvalue : ¬ (TxOutput.ofPubkeyHash value richHash).value ≤ 0 := Int64.not_le.mpr hpos
  simp only [richTx, newCoins, hspendable, Bool.false_eq_true, if_false, if_neg hvalue]
  simp only [TxOutput.ofPubkeyHash, Script.extractPubkeyHash_createPayToPubkeyHash]
  rfl

theorem valueAt_rich {value : Int64} (hpos : 0 < value) :
    (run (openDB CoinsDB.empty) [.apply (richTx value) 0 true]).valueAt richHash = 2 * value.toInt := by
  have happly : (openDB CoinsDB.empty).applyTransaction (richTx value) 0 true =
      .ok ((openDB CoinsDB.empty).addCoins (newCoins (richTx value).getHash 0 true 0 (richTx value).outputs),
        []) := rfl
  have hrun : run (openDB CoinsDB.empty) [.apply (richTx value) 0 true] =
      (openDB CoinsDB.empty).addCoins (newCoins (richTx value).getHash 0 true 0 (richTx value).outputs) := by
    rw [run, List.foldl_cons, List.foldl_nil, step, happly]
  have hempty : (openDB CoinsDB.empty).getCoin = fun _ => none := rfl
  rw [hrun, newCoins_rich hpos, valueAt, getCoin_addCoins, hempty]
  generalize (richTx value).getHash = txHash
  have hne : (⟨txHash, 0⟩ : OutPoint) ≠ ⟨txHash, 1⟩ := fun heq => by cases congrArg OutPoint.index heq
  have hcoins : (fun o => ((Journal.replay ([(⟨txHash, 0⟩, Coin.unspent value richHash 0 true),
      (⟨txHash, 1⟩, Coin.unspent value richHash 0 true)].map fun item => (item.1, item.2.live))
        (fun _ => none) o).filter fun coin => coin.pubkeyHash = richHash).elim 0 fun coin => coin.value.toInt) =
      fun o : OutPoint => if o ∈ ({⟨txHash, 0⟩, ⟨txHash, 1⟩} : Finset OutPoint) then value.toInt else 0 := by
    funext o
    simp only [List.map_cons, List.map_nil, Journal.replay_cons, Journal.replay_nil, Finset.mem_insert,
      Finset.mem_singleton]
    by_cases h1 : o = ⟨txHash, 1⟩
    · subst h1
      simp [Coin.unspent, Coin.live, Option.filter_some]
    · by_cases h0 : o = ⟨txHash, 0⟩
      · subst h0
        simp [hne, Coin.unspent, Coin.live, Option.filter_some]
      · simp [h0, h1]
  rw [hcoins, finsum_eq_sum_of_support_subset (s := {⟨txHash, 0⟩, ⟨txHash, 1⟩}) _ (by
    intro o ho
    by_contra hnot
    exact ho (if_neg hnot))]
  rw [Finset.sum_pair hne, if_pos (by simp), if_pos (by simp), two_mul]

/-- With two coins of 5 the balance is 10. -/
theorem queries_match_coins_rich :
    ∃ u : UTXOSet, u = run (openDB CoinsDB.empty) [.apply (richTx 5) 0 true] ∧
      StoredAs u.db [] (records u.db []) ∧ (u.getBalance [] (records u.db []) richHash).toInt = 10 ∧
      ∀ o coin, (o, coin) ∈ u.getUTXOsForAddress [] (records u.db []) richHash ↔
        u.getCoin o = some coin ∧ coin.pubkeyHash = richHash := by
  have hvalue : (5 : Int64).toInt = 5 := by decide
  have hten : (run (openDB CoinsDB.empty) [.apply (richTx 5) 0 true]).valueAt richHash = 10 := by
    rw [valueAt_rich (by decide), hvalue]
    rfl
  obtain ⟨hlist, -, hbalance⟩ := queries_match_coins
    (storedAs_records (run (openDB CoinsDB.empty) [.apply (richTx 5) 0 true]).db [])
  refine ⟨_, rfl, storedAs_records _ _, ?_, (hlist richHash).2⟩
  rw [(hbalance richHash).mpr (by rw [hten]; decide), hten]

/-- **A balance that does not fit.**  A transaction with two outputs of `2 ^ 62` each is applied as a coinbase. -/
theorem getBalance_overflows :
    ∃ u : UTXOSet, u = run (openDB CoinsDB.empty) [.apply (richTx 4611686018427387904) 0 true] ∧
      StoredAs u.db [] (records u.db []) ∧
      (u.getBalance [] (records u.db []) richHash).toInt ≠ u.valueAt richHash := by
  refine ⟨_, rfl, storedAs_records _ _, ?_⟩
  have hvalue : (4611686018427387904 : Int64).toInt = 2 ^ 62 := by decide
  rw [ne_eq, getBalance_toInt_iff (storedAs_records _ _), valueAt_rich (by decide), hvalue]
  omega

end UTXOSet

end Moneu
