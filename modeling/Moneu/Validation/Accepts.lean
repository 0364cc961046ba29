/-
# What a passed check says

The validation functions are long chains of comparisons over machine integers.  Each lemma here
reads a SUCCESS of one of them as facts about integers, lists and the two maps of the UTXO set, so
that nothing above this module looks into the checks again.
-/
import Moneu.Lib.MachineInt
import Moneu.Storage.TxEffect
import Moneu.Validation.BlockValidation

namespace Moneu

open NetParams MachineInt

theorem bind_eq_ok {ε α β : Type} {x : Except ε α} {f : α → Except ε β} {b : β} :
    x >>= f = .ok b ↔ ∃ a, x = .ok a ∧ f a = .ok b := by
  cases x with
  | error e => exact ⟨nofun, fun ⟨a, h, _⟩ => nomatch h⟩
  | ok a => exact ⟨fun h => ⟨a, rfl, h⟩, fun ⟨_, h, hf⟩ => by cases h; exact hf⟩

theorem guard_eq_ok {ε α : Type} {c : Prop} [Decidable c] {e : ε} {x : Except ε α} {a : α} :
    (if c then .error e else x) = .ok a ↔ ¬ c ∧ x = .ok a := by
  by_cases h : c <;> simp [h]

/-- The keys `keys` have been entered into a set of used ones: they were free, and no two are equal. -/
structure Claims {α : Type} (scope keys scope' : List α) : Prop where
  eq : scope' = keys.reverse ++ scope
  free : ∀ k ∈ keys, k ∉ scope
  nodup : keys.Nodup

section Claims

variable {α : Type} {scope scope' scope'' keys keys' : List α}

theorem Claims.nil : Claims scope [] scope := ⟨rfl, by simp, .nil⟩

theorem Claims.single {k : α} (hk : k ∉ scope) : Claims scope [k] (k :: scope) :=
  ⟨rfl, by simpa using hk, List.nodup_singleton k⟩

theorem Claims.append (h : Claims scope keys scope') (h' : Claims scope' keys' scope'') :
    Claims scope (keys ++ keys') scope'' := by
  have hfree := h'.free
  rw [h.eq] at hfree
  refine ⟨by rw [h'.eq, h.eq, List.reverse_append, List.append_assoc], fun k hk => ?_,
    List.nodup_append'.mpr ⟨h.nodup, h'.nodup, fun k hk hk' => ?_⟩⟩
  · rcases List.mem_append.mp hk with hk | hk
    · exact h.free k hk
    · exact fun hmem => hfree k hk (List.mem_append_right _ hmem)
  · exact hfree k hk' (List.mem_append_left _ (List.mem_reverse.mpr hk))

end Claims

/-! ## 1. Values of outputs -/

/-- What the outputs pay, as an integer. -/
def Transaction.valueOut (tx : Transaction) : Int := (tx.outputs.map fun out => out.value.toInt).sum

/-- What a list of coins is worth, as an integer. -/
def Coin.total (coins : List Coin) : Int := (coins.map fun c => c.value.toInt).sum

@[simp]
theorem Coin.total_nil : Coin.total [] = 0 := rfl

@[simp]
theorem Coin.total_cons (c : Coin) (coins : List Coin) :
    Coin.total (c :: coins) = c.value.toInt + Coin.total coins := rfl

/-- An amount between zero and `MAX_MONEY`. -/
def MoneyRange (v : Int64) : Prop := 0 ≤ v.toInt ∧ v.toInt ≤ MAX_MONEY.toInt

theorem MoneyRange.nonneg {v : Int64} (h : MoneyRange v) : 0 ≤ v := by
  rw [Int64.le_iff_toInt_le, toInt_zero]
  exact h.1

theorem toInt_MAX_MONEY : MAX_MONEY.toInt = 3000000000000000 := by decide

theorem sum_value_nonneg {outputs : List TxOutput} (h : ∀ out ∈ outputs, 0 ≤ out.value.toInt) :
    0 ≤ (outputs.map fun out => out.value.toInt).sum :=
  List.sum_nonneg (by simpa using h)

namespace TxValidation

theorem checkMoneyRange_eq_ok {v : Int64} : checkMoneyRange v = .ok () ↔ MoneyRange v := by
  have hzero : ¬ v < 0 ↔ 0 ≤ v.toInt := by
    rw [Int64.lt_iff_toInt_lt, toInt_zero]
    omega
  have hmax : ¬ v > MAX_MONEY ↔ v.toInt ≤ MAX_MONEY.toInt := by
    rw [gt_iff_lt, Int64.lt_iff_toInt_lt]
    omega
  unfold checkMoneyRange MoneyRange
  rw [← hzero, ← hmax]
  by_cases h : v < 0
  · simp [h, setInvalid]
  · by_cases h' : v > MAX_MONEY <;> simp [h, h', setInvalid]

theorem toInt_of_safeAdd {a b c : Int64} (h : safeAdd a b = some c) :
    c.toInt = a.toInt + b.toInt := by
  have hmax : Int64.maxValue.toInt = 2 ^ 63 - 1 := rfl
  have hmin : Int64.minValue.toInt = -2 ^ 63 := rfl
  have hb := b.toInt_lt
  have hb' := b.le_toInt
  have ha := a.toInt_lt
  have ha' := a.le_toInt
  simp only [safeAdd, Option.ite_none_left_eq_some, Option.some.injEq] at h
  obtain ⟨hpos, hneg, rfl⟩ := h
  simp only [gt_iff_lt, Int64.lt_iff_toInt_lt, Int64.toInt_sub, Int.bmod_def, hmax, hmin,
    toInt_zero] at hpos hneg
  exact toInt_add_of_fits (by omega) (by omega)

theorem checkOutputsFrom_cons {isCoinbase : Bool} {out : TxOutput} {rest : List TxOutput} {i : Nat}
    {total : Int64} (h : checkOutputsFrom isCoinbase i total (out :: rest) = .ok ()) :
    MoneyRange out.value ∧ ∃ newTotal, newTotal.toInt = total.toInt + out.value.toInt ∧
      newTotal.toInt ≤ MAX_MONEY.toInt ∧
      checkOutputsFrom isCoinbase (i + 1) newTotal rest = .ok () := by
  unfold checkOutputsFrom at h
  obtain ⟨⟨⟩, hrange, h⟩ := bind_eq_ok.mp h
  obtain ⟨type, -, h⟩ := bind_eq_ok.mp h
  obtain ⟨-, h⟩ := guard_eq_ok.mp h
  split at h
  case h_1 => cases h
  case h_2 newTotal hadd =>
    obtain ⟨hmax, h⟩ := guard_eq_ok.mp h
    rw [gt_iff_lt, Int64.lt_iff_toInt_lt] at hmax
    exact ⟨checkMoneyRange_eq_ok.mp hrange, newTotal, toInt_of_safeAdd hadd, by omega, h⟩

theorem checkOutputsFrom_ok {isCoinbase : Bool} : ∀ {outputs : List TxOutput} {i : Nat}
    {total : Int64}, total.toInt ≤ MAX_MONEY.toInt →
      checkOutputsFrom isCoinbase i total outputs = .ok () →
      (∀ out ∈ outputs, MoneyRange out.value) ∧
        total.toInt + (outputs.map fun out => out.value.toInt).sum ≤ MAX_MONEY.toInt
  | [], _, _, htotal, _ => ⟨by simp, by simpa using htotal⟩
  | out :: rest, i, total, _, h => by
    obtain ⟨hrange, newTotal, hsum, hmax, h⟩ := checkOutputsFrom_cons h
    obtain ⟨hranges, htotal⟩ := checkOutputsFrom_ok hmax h
    refine ⟨List.forall_mem_cons.mpr ⟨hrange, hranges⟩, ?_⟩
    rw [List.map_cons, List.sum_cons]
    omega

theorem checkTransaction_ok {tx : Transaction} (hcb : tx.isCoinbase = false)
    (h : checkTransaction tx = .ok ()) :
    tx.inputs ≠ [] ∧ (tx.inputs.map TxInput.outpoint).Nodup ∧
      (∀ out ∈ tx.outputs, MoneyRange out.value) ∧ tx.valueOut ≤ MAX_MONEY.toInt := by
  unfold checkTransaction at h
  obtain ⟨-, -, h⟩ := bind_eq_ok.mp h
  obtain ⟨⟨⟩, hinputs, h⟩ := bind_eq_ok.mp h
  obtain ⟨⟨⟩, houtputs, -⟩ := bind_eq_ok.mp h
  obtain ⟨hne, hinputs⟩ := guard_eq_ok.mp hinputs
  rw [hcb, if_neg (by simp)] at hinputs
  obtain ⟨hnodup, -⟩ := guard_eq_ok.mp hinputs
  obtain ⟨-, houtputs⟩ := guard_eq_ok.mp houtputs
  obtain ⟨hranges, htotal⟩ := checkOutputsFrom_ok (by decide) houtputs
  refine ⟨by simpa using hne, not_not.mp hnodup, hranges, ?_⟩
  simpa [Transaction.valueOut, toInt_zero] using htotal

theorem toInt_of_sumOutputs {reason : String} : ∀ {outputs : List TxOutput} {total r : Int64},
    sumOutputs reason total outputs = .ok r →
      r.toInt = total.toInt + (outputs.map fun out => out.value.toInt).sum
  | [], total, r, h => by
    cases h
    simp
  | out :: rest, total, r, h => by
    unfold sumOutputs at h
    split at h
    case h_1 => cases h
    case h_2 newTotal hadd =>
      rw [toInt_of_sumOutputs h, toInt_of_safeAdd hadd, List.map_cons, List.sum_cons]
      omega

end TxValidation

namespace Transaction

/-- `GetValueOut` returns the integer sum of outputs none of which is negative. -/
theorem valueOutFrom_ok : ∀ {outputs : List TxOutput} {total r : Int64}, 0 ≤ total →
    valueOutFrom total outputs = .ok r →
      (∀ out ∈ outputs, 0 ≤ out.value.toInt) ∧ 0 ≤ r ∧
        r.toInt = total.toInt + (outputs.map fun out => out.value.toInt).sum
  | [], total, r, htotal, h => by
    cases h
    exact ⟨by simp, htotal, by simp⟩
  | out :: rest, total, r, htotal, h => by
    unfold valueOutFrom at h
    obtain ⟨hneg, h⟩ := guard_eq_ok.mp h
    obtain ⟨hover, h⟩ := guard_eq_ok.mp h
    have hout : 0 ≤ out.value := Int64.not_lt.mp hneg
    have hsum := toInt_add_of_le_sub htotal hout hover
    have h₁ := toInt_nonneg htotal
    have h₂ := toInt_nonneg hout
    obtain ⟨hnonneg, hr, heq⟩ := valueOutFrom_ok (by
      rw [Int64.le_iff_toInt_le, toInt_zero, hsum]
      omega) h
    refine ⟨List.forall_mem_cons.mpr ⟨h₂, hnonneg⟩, hr, ?_⟩
    rw [heq, hsum, List.map_cons, List.sum_cons]
    omega

theorem getValueOut_ok {tx : Transaction} {v : Int64} (h : tx.getValueOut = .ok v) :
    (∀ out ∈ tx.outputs, 0 ≤ out.value.toInt) ∧ 0 ≤ v ∧ v.toInt = tx.valueOut := by
  obtain ⟨hnonneg, hv, heq⟩ := valueOutFrom_ok (by decide) h
  exact ⟨hnonneg, hv, by simpa [valueOut, toInt_zero] using heq⟩

theorem valueOutFrom_fits : ∀ {outputs : List TxOutput} {total : Int64}, 0 ≤ total →
    (∀ out ∈ outputs, 0 ≤ out.value.toInt) →
    total.toInt + (outputs.map fun out => out.value.toInt).sum < 2 ^ 63 →
      ∃ r, valueOutFrom total outputs = .ok r
  | [], total, _, _, _ => ⟨total, rfl⟩
  | out :: rest, total, htotal, hnonneg, hfits => by
    rw [List.map_cons, List.sum_cons] at hfits
    obtain ⟨hout, hnonneg⟩ := List.forall_mem_cons.mp hnonneg
    have hrest := sum_value_nonneg hnonneg
    have htotal' := toInt_nonneg htotal
    have hsum : (total + out.value).toInt = total.toInt + out.value.toInt :=
      toInt_add_of_fits (by omega) (by omega)
    obtain ⟨r, hr⟩ : ∃ r, valueOutFrom (total + out.value) rest = .ok r := valueOutFrom_fits
      (by rw [Int64.le_iff_toInt_le, toInt_zero]; omega) hnonneg (by omega)
    refine ⟨r, ?_⟩
    unfold valueOutFrom
    rw [if_neg, if_neg, hr]
    · have hlt := out.value.toInt_lt
      rw [gt_iff_lt, Int64.lt_iff_toInt_lt, Int64.toInt_sub, Int.bmod_def, toInt_maxValue]
      omega
    · rw [Int64.lt_iff_toInt_lt, toInt_zero]
      omega

theorem getValueOut_fits {tx : Transaction} (h : ∀ out ∈ tx.outputs, MoneyRange out.value)
    (htotal : tx.valueOut ≤ MAX_MONEY.toInt) : ∃ v, tx.getValueOut = .ok v ∧ v.toInt = tx.valueOut := by
  have hmax := toInt_MAX_MONEY
  obtain ⟨v, hv⟩ : ∃ v, tx.getValueOut = .ok v :=
    valueOutFrom_fits (by decide) (fun out ho => (h out ho).1) (by
      rw [toInt_zero]
      unfold valueOut at htotal
      omega)
  exact ⟨v, hv, (getValueOut_ok hv).2.2⟩

end Transaction

/-! ## 2. Inputs -/

namespace TxValidation

/-- The input loop finds a coin for every input, each in range, and returns their total. -/
theorem sumInputs_ok {u : UTXOSet} {currentHeight : UInt32} : ∀ {inputs : List TxInput}
    {total r : Int64}, total.toInt ≤ MAX_MONEY.toInt →
      sumInputs u currentHeight total inputs = .ok r →
      ∃ spent : List Coin, inputs.map (fun input => u.getCoin input.outpoint) = spent.map some ∧
        (∀ c ∈ spent, MoneyRange c.value) ∧ r.toInt = total.toInt + Coin.total spent ∧
        r.toInt ≤ MAX_MONEY.toInt
  | [], total, r, htotal, h => by
    cases h
    exact ⟨[], rfl, by simp, by simp [Coin.total], htotal⟩
  | input :: rest, total, r, _, h => by
    unfold sumInputs at h
    split at h
    case h_1 => cases h
    case h_2 coin hcoin =>
      obtain ⟨-, h⟩ := guard_eq_ok.mp h
      obtain ⟨-, h⟩ := guard_eq_ok.mp h
      obtain ⟨⟨⟩, hrange, h⟩ := bind_eq_ok.mp h
      split at h
      case h_1 => cases h
      case h_2 newTotal hadd =>
        obtain ⟨hmax, h⟩ := guard_eq_ok.mp h
        rw [gt_iff_lt, Int64.lt_iff_toInt_lt] at hmax
        obtain ⟨spent, hfound, hranges, heq, hle⟩ := sumInputs_ok (by omega) h
        refine ⟨coin :: spent, by simp [hcoin, hfound],
          List.forall_mem_cons.mpr ⟨checkMoneyRange_eq_ok.mp hrange, hranges⟩, ?_, hle⟩
        rw [heq, toInt_of_safeAdd hadd, Coin.total_cons]
        omega

/-- `CheckTransactionWithUTXO` on a transaction that is not a coinbase. -/
theorem checkTransactionWithUTXO_ok {tx : Transaction} {u : UTXOSet} {currentHeight : UInt32}
    (hcb : tx.isCoinbase = false) (h : checkTransactionWithUTXO tx u currentHeight = .ok ()) :
    ∃ spent : List Coin, tx.inputs.map (fun input => u.getCoin input.outpoint) = spent.map some ∧
      (∀ c ∈ spent, MoneyRange c.value) ∧ Coin.total spent ≤ MAX_MONEY.toInt ∧
      tx.valueOut ≤ Coin.total spent := by
  unfold checkTransactionWithUTXO at h
  obtain ⟨⟨⟩, -, h⟩ := bind_eq_ok.mp h
  rw [hcb, if_neg (by simp)] at h
  obtain ⟨totalIn, hin, h⟩ := bind_eq_ok.mp h
  obtain ⟨totalOut, hout, h⟩ := bind_eq_ok.mp h
  obtain ⟨hle, -⟩ := guard_eq_ok.mp h
  rw [Int64.lt_iff_toInt_lt] at hle
  obtain ⟨spent, hfound, hranges, heq, hmax⟩ := sumInputs_ok (by decide) hin
  have hsum := toInt_of_sumOutputs hout
  rw [toInt_zero] at heq hsum
  refine ⟨spent, hfound, hranges, by omega, ?_⟩
  unfold Transaction.valueOut
  omega

end TxValidation

/-! ## 3. Noise proofs -/

theorem NoiseProof.length_of_deserialize {bytes rest : List UInt8} {proof : NoiseProof}
    (hne : bytes ≠ []) (h : NoiseProof.deserialize bytes = .ok (proof, rest)) :
    rest.length < bytes.length := by
  refine Decoder.Shrinks.le32_bind (fun leafIndex => ?_) hne (Decoder.of_require_bind h)
  refine (Decoder.Shrinks.array 32).bind fun leaf => ?_
  refine (Decoder.Shrinks.array 32).bind fun boundProof => ?_
  refine Decoder.Shrinks.le32.bind fun pathLen => ?_
  refine (Decoder.Shrinks.throwIf _ _).bind fun _ => ?_
  refine (Decoder.Shrinks.require _ _).bind fun _ => ?_
  refine ((Decoder.Shrinks.array 32).replicate _).bind fun merklePath => ?_
  exact (Decoder.Shrinks.vec _).bind fun pathDirs => Decoder.Shrinks.pure _

/-- The number of turns allowed does not matter once it covers the bytes. -/
theorem NoiseProof.readFrom_cons {n : Nat} {bytes rest : List UInt8} {proof : NoiseProof}
    (hne : bytes ≠ []) (hn : bytes.length ≤ n)
    (h : NoiseProof.deserialize bytes = .ok (proof, rest)) :
    ∃ m, rest.length ≤ m ∧
      NoiseProof.readFrom n bytes = (proof :: (NoiseProof.readFrom m rest).1,
        (NoiseProof.readFrom m rest).2) := by
  have hlt := NoiseProof.length_of_deserialize hne h
  cases bytes with
  | nil => exact absurd rfl hne
  | cons b bytes =>
    cases n with
    | zero => simp at hn
    | succ n =>
      refine ⟨n, by omega, ?_⟩
      simp only [NoiseProof.readFrom, h]

/-- The proofs of this input are the ones its transaction calls for. -/
def TxInput.Proved (txHash : Bytes32) (i : Nat) (input : TxInput) : Prop :=
  input.noiseProof ≠ [] ∧ (NoiseProof.readAll input.noiseProof).2 = none ∧
    input.leaves = (deriveLeafIndices txHash input.kps (UInt32.ofNat i) NOISE_PROOFS_PER_INPUT
      NOISE_LEAF_COUNT).map fun leafIndex => { kps := input.kps, leafIndex }

/-- The proofs of every input are the ones the transaction calls for. -/
def Transaction.Proved (tx : Transaction) : Prop :=
  ∀ (i : Nat) (input : TxInput), tx.inputs[i]? = some input → input.Proved tx.getHash i

namespace TxValidation

variable {u : UTXOSet} {tx : Transaction}

/-- The proof loop reads one proof for each wanted leaf; the leaves are unspent, not claimed
before, and all different. -/
theorem checkProofs_ok {kps txHash : Bytes32} {i : Nat} : ∀ {wanted : List UInt32}
    {bytes rest : List UInt8} {scope scope' : List NoiseLeafKey},
    checkProofs u kps txHash i wanted bytes scope = .ok (rest, scope') → rest = [] →
      ∃ proofs, (∀ n, bytes.length ≤ n → NoiseProof.readFrom n bytes = (proofs, none)) ∧
        proofs.map NoiseProof.leafIndex = wanted ∧
        Claims scope (UTXOSet.leafKeys kps proofs) scope' ∧
        ∀ key ∈ UTXOSet.leafKeys kps proofs, u.isNoiseLeafSpent key = false
  | [], bytes, rest, scope, scope', h, hrest => by
    cases h
    subst hrest
    exact ⟨[], fun n _ => by cases n <;> rfl, rfl, .nil, by simp [UTXOSet.leafKeys]⟩
  | w :: wanted, bytes, rest, scope, scope', h, hrest => by
    unfold checkProofs at h
    split at h
    case h_1 => cases h
    case h_2 proof bytes' hread =>
      obtain ⟨hwanted, h⟩ := guard_eq_ok.mp h
      obtain ⟨-, h⟩ := guard_eq_ok.mp h
      obtain ⟨hscope, h⟩ := guard_eq_ok.mp h
      obtain ⟨hspent, h⟩ := guard_eq_ok.mp h
      obtain ⟨proofs, hreads, hmap, hclaims, hfresh⟩ := checkProofs_ok h hrest
      have hne : bytes ≠ [] := by
        rintro rfl
        cases hread
      refine ⟨proof :: proofs, fun n hn => ?_, ?_, (Claims.single hscope).append hclaims,
        List.forall_mem_cons.mpr ⟨by simpa using hspent, hfresh⟩⟩
      · obtain ⟨m, hm, heq⟩ := NoiseProof.readFrom_cons hne hn hread
        rw [heq, hreads m hm]
      · rw [List.map_cons, hmap, not_not.mp hwanted]

theorem verifyInput_ok [Ed25519] {i : Nat} {input : TxInput} {scope scope' : List NoiseLeafKey}
    (h : verifyInput tx u i input scope = .ok scope') :
    input.Proved tx.getHash i ∧ Claims scope input.leaves scope' ∧
      ∀ key ∈ input.leaves, u.isNoiseLeafSpent key = false := by
  unfold verifyInput at h
  split at h
  case h_1 => cases h
  case h_2 =>
    obtain ⟨-, h⟩ := guard_eq_ok.mp h
    obtain ⟨hempty, h⟩ := guard_eq_ok.mp h
    obtain ⟨-, h⟩ := guard_eq_ok.mp h
    split at h
    case h_1 => cases h
    case h_2 bytes leafScope hproofs =>
      obtain ⟨hbytes, h⟩ := guard_eq_ok.mp h
      obtain ⟨-, h⟩ := guard_eq_ok.mp h
      cases h
      obtain ⟨proofs, hreads, hmap, hclaims, hfresh⟩ := checkProofs_ok hproofs (by simpa using hbytes)
      have hall : NoiseProof.readAll input.noiseProof = (proofs, none) := hreads _ (Nat.le_refl _)
      have hleaves : input.leaves = UTXOSet.leafKeys input.kps proofs := by
        rw [TxInput.leaves, hall]
      rw [hleaves]
      refine ⟨⟨by simpa using hempty, by rw [hall], ?_⟩, hclaims, hfresh⟩
      rw [hleaves, ← hmap]
      simp [UTXOSet.leafKeys]

theorem verifyInputsFrom_ok [Ed25519] : ∀ {inputs : List TxInput}
    {i : Nat} {scope scope' : List NoiseLeafKey},
    verifyInputsFrom tx u i inputs scope = .ok scope' →
      (∀ (j : Nat) (input : TxInput), inputs[j]? = some input → input.Proved tx.getHash (i + j)) ∧
        Claims scope (inputs.flatMap TxInput.leaves) scope' ∧
        ∀ key ∈ inputs.flatMap TxInput.leaves, u.isNoiseLeafSpent key = false
  | [], _, scope, scope', h => by
    cases h
    exact ⟨by simp, .nil, by simp⟩
  | input :: rest, i, scope, scope', h => by
    unfold verifyInputsFrom at h
    split at h
    case h_1 => cases h
    case h_2 scope₁ hone =>
      obtain ⟨hproved, hclaims, hfresh⟩ := verifyInput_ok hone
      obtain ⟨hproved', hclaims', hfresh'⟩ := verifyInputsFrom_ok h
      refine ⟨fun j inp hj => ?_, hclaims.append hclaims', fun key hkey => ?_⟩
      · cases j with
        | zero =>
          cases hj
          exact hproved
        | succ j =>
          rw [show i + (j + 1) = i + 1 + j by omega]
          exact hproved' j inp hj
      · exact (List.mem_append.mp hkey).elim (hfresh key) (hfresh' key)

/-- **`VerifyTransactionSignatures`**: the leaves of the transaction are the ones it calls for,
unspent, not claimed before, and all different. -/
theorem verifyTransactionSignatures_ok [Ed25519] {scope scope' : List NoiseLeafKey}
    (hcb : tx.isCoinbase = false) (h : verifyTransactionSignatures tx u scope = .ok scope') :
    tx.Proved ∧ Claims scope tx.leaves scope' ∧ ∀ key ∈ tx.leaves, u.isNoiseLeafSpent key = false := by
  unfold verifyTransactionSignatures at h
  rw [hcb, if_neg (by simp)] at h
  obtain ⟨hproved, hrest⟩ := verifyInputsFrom_ok h
  exact ⟨fun i input hi => by simpa using hproved i input hi, hrest⟩

end TxValidation

/-! ## 4. Blocks -/

/-- What a transaction of a passed block is, next to the coins it was checked against. -/
structure TxAccepted (coins : OutPoint → Option Coin) (tx : Transaction) (spent : List Coin) :
    Prop where
  notCoinbase : tx.isCoinbase = false
  inputs : tx.inputs ≠ []
  found : tx.inputs.map (fun input => coins input.outpoint) = spent.map some
  range : ∀ c ∈ spent, MoneyRange c.value
  total : Coin.total spent ≤ MAX_MONEY.toInt
  outputs : ∀ out ∈ tx.outputs, MoneyRange out.value
  pays : tx.valueOut ≤ Coin.total spent
  proved : tx.Proved

/-- The fees of transactions that spend the coins `spents`. -/
def feesOf (txs : List Transaction) (spents : List (List Coin)) : Int :=
  ((txs.zip spents).map fun item => Coin.total item.2 - item.1.valueOut).sum

@[simp]
theorem feesOf_cons (tx : Transaction) (txs : List Transaction) (spent : List Coin)
    (spents : List (List Coin)) :
    feesOf (tx :: txs) (spent :: spents) = Coin.total spent - tx.valueOut + feesOf txs spents := rfl

/-- The outpoints transactions spend. -/
def spentBy (txs : List Transaction) : List OutPoint :=
  txs.flatMap fun tx => tx.inputs.map TxInput.outpoint

/-- What a passed block is, next to the coins it was checked against.  The fees go to the miner
only from `FEES_TO_MINER_HEIGHT` on. -/
structure BlockAccepted (coins : OutPoint → Option Coin) (height : UInt32) (coinbase : Transaction)
    (rest : List Transaction) (spents : List (List Coin)) : Prop where
  txs : List.Forall₂ (TxAccepted coins) rest spents
  outpoints : (spentBy rest).Nodup
  leaves : (rest.flatMap Transaction.leaves).Nodup
  outputs : ∀ out ∈ coinbase.outputs, 0 ≤ out.value.toInt
  reward : coinbase.valueOut ≤ (getBlockSubsidy height.toUInt64).toNat +
    if height < FEES_TO_MINER_HEIGHT then 0 else feesOf rest spents

theorem TxAccepted.mono {coins coins' : OutPoint → Option Coin} {tx : Transaction}
    {spent : List Coin} (h : TxAccepted coins tx spent)
    (hcoins : ∀ o, Journal.Below (coins o) (coins' o)) : TxAccepted coins' tx spent := by
  have hfound : tx.inputs.map (fun input => coins' input.outpoint) = spent.map some := by
    have hlen : tx.inputs.length = spent.length := by simpa using congrArg List.length h.found
    refine List.ext_getElem (by simpa using hlen) fun i hi hi' => ?_
    have hget := congrArg (fun l => l[i]?) h.found
    simp only [List.length_map] at hi hi'
    simp only [List.getElem?_map, List.getElem?_eq_getElem hi, List.getElem?_eq_getElem hi',
      Option.map_some, Option.some.injEq] at hget
    simpa using hcoins _ _ hget
  exact { h with found := hfound }

theorem BlockAccepted.mono {coins coins' : OutPoint → Option Coin} {height : UInt32}
    {coinbase : Transaction} {rest : List Transaction} {spents : List (List Coin)}
    (h : BlockAccepted coins height coinbase rest spents)
    (hcoins : ∀ o, Journal.Below (coins o) (coins' o)) :
    BlockAccepted coins' height coinbase rest spents :=
  { h with txs := h.txs.imp fun _ _ htx => htx.mono hcoins }

namespace BlockValidation

variable {i : Nat} {u : UTXOSet} {currentHeight : UInt32}

theorem quote_eq_ok {α : Type} {text : String} {x : TxCheck α} {a : α} :
    quote i text x = .ok a ↔ x = .ok a := by
  match x with
  | .ok b => simp [quote]
  | .error (.invalid _ _) => simp [quote, txReason, setInvalid]
  | .error (.threw _) => simp [quote]

theorem checkOthersFrom_ok : ∀ {txs : List Transaction} {i : Nat}, checkOthersFrom i txs = .ok () →
    ∀ tx ∈ txs, tx.isCoinbase = false ∧ TxValidation.checkTransaction tx = .ok ()
  | [], _, _ => by simp
  | tx :: rest, i, h => by
    obtain ⟨hcb, h⟩ := guard_eq_ok.mp h
    split at h
    case h_1 => cases h
    case h_2 hquote =>
      exact List.forall_mem_cons.mpr ⟨⟨by simpa using hcb, quote_eq_ok.mp hquote⟩, checkOthersFrom_ok h⟩

theorem checkDuplicatesFrom_ok : ∀ {txs : List Transaction} {i : Nat} {seen : List Bytes32},
    checkDuplicatesFrom i seen txs = .ok () → ∃ seen', Claims seen (txs.map Transaction.getHash) seen'
  | [], _, seen, _ => ⟨seen, .nil⟩
  | tx :: rest, i, seen, h => by
    obtain ⟨hseen, h⟩ := guard_eq_ok.mp h
    obtain ⟨seen', hclaims⟩ := checkDuplicatesFrom_ok h
    exact ⟨seen', (Claims.single hseen).append hclaims⟩

/-- **`CheckBlock`**: the size, one coinbase in front, checked transactions behind it, and no
txid twice. -/
theorem checkBlock_ok {block : Block} {now : UInt64} (h : checkBlock block now = .ok ()) :
    block.getSerializedSize ≤ MAX_BLOCK_SIZE ∧
      (∃ coinbase rest, block.transactions = coinbase :: rest ∧ coinbase.isCoinbase = true ∧
        ∀ tx ∈ rest, tx.isCoinbase = false ∧ TxValidation.checkTransaction tx = .ok ()) ∧
      (block.transactions.map Transaction.getHash).Nodup := by
  unfold checkBlock at h
  obtain ⟨⟨⟩, -, h⟩ := bind_eq_ok.mp h
  obtain ⟨⟨⟩, hsize, h⟩ := bind_eq_ok.mp h
  obtain ⟨⟨⟩, -, h⟩ := bind_eq_ok.mp h
  obtain ⟨⟨⟩, htxs, hdup⟩ := bind_eq_ok.mp h
  obtain ⟨hsize, -⟩ := guard_eq_ok.mp hsize
  obtain ⟨seen, hclaims⟩ := checkDuplicatesFrom_ok hdup
  refine ⟨by omega, ?_, hclaims.nodup⟩
  unfold checkBlockTransactions at htxs
  split at htxs
  case h_1 => cases htxs
  case h_2 coinbase rest heq =>
    obtain ⟨hcb, htxs⟩ := guard_eq_ok.mp htxs
    exact ⟨coinbase, rest, heq, by simpa using hcb, checkOthersFrom_ok htxs⟩

theorem claimOutpoints_ok : ∀ {inputs : List TxInput} {scope scope' : List OutPoint},
    claimOutpoints i inputs scope = .ok scope' → Claims scope (inputs.map TxInput.outpoint) scope'
  | [], scope, scope', h => by
    cases h
    exact .nil
  | input :: rest, scope, scope', h => by
    obtain ⟨hmem, h⟩ := guard_eq_ok.mp h
    exact (Claims.single hmem).append (claimOutpoints_ok h)

theorem feeInputs_ok : ∀ {inputs : List TxInput} {spent : List Coin}
    {txIn r : UInt64}, inputs.map (fun input => u.getCoin input.outpoint) = spent.map some →
      (∀ c ∈ spent, MoneyRange c.value) → feeInputs u i txIn inputs = .ok r →
      (r.toNat : Int) = txIn.toNat + Coin.total spent
  | [], [], txIn, r, _, _, h => by
    cases h
    simp [Coin.total]
  | input :: rest, c :: spent, txIn, r, hfound, hrange, h => by
    simp only [List.map_cons, List.cons.injEq] at hfound
    unfold feeInputs at h
    rw [hfound.1] at h
    obtain ⟨hover, h⟩ := guard_eq_ok.mp h
    have hsum := toNat_add_of_not_lt hover
    obtain ⟨hc, hrange⟩ := List.forall_mem_cons.mp hrange
    have hcast := toNat_toUInt64 hc.nonneg
    rw [feeInputs_ok hfound.2 hrange h, Coin.total_cons, hsum]
    omega

theorem foldl_outputs {outputs : List TxOutput} {txOut : UInt64}
    (hrange : ∀ out ∈ outputs, MoneyRange out.value)
    (hfits : txOut.toNat + (outputs.map fun out => out.value.toInt).sum ≤ MAX_MONEY.toInt) :
    ((outputs.foldl (fun txOut out => txOut + out.value.toUInt64) txOut).toNat : Int) =
      txOut.toNat + (outputs.map fun out => out.value.toInt).sum := by
  induction outputs generalizing txOut with
  | nil => simp
  | cons out rest ih =>
    rw [List.map_cons, List.sum_cons] at hfits
    have hmax := toInt_MAX_MONEY
    obtain ⟨hout, hrange⟩ := List.forall_mem_cons.mp hrange
    have hcast := toNat_toUInt64 hout.nonneg
    have hrest := sum_value_nonneg fun o ho => (hrange o ho).1
    have hsum : (txOut + out.value.toUInt64).toNat = txOut.toNat + out.value.toUInt64.toNat := by
      rw [UInt64.toNat_add]
      omega
    rw [List.foldl_cons, ih hrange (by rw [hsum]; omega), hsum, List.map_cons, List.sum_cons]
    omega

theorem feeOutputs_eq {tx : Transaction} (hrange : ∀ out ∈ tx.outputs, MoneyRange out.value)
    (htotal : tx.valueOut ≤ MAX_MONEY.toInt) : ((feeOutputs tx.outputs).toNat : Int) = tx.valueOut := by
  have hzero : (0 : UInt64).toNat = 0 := rfl
  unfold feeOutputs
  rw [foldl_outputs hrange (by unfold Transaction.valueOut at htotal; omega), hzero]
  simp [Transaction.valueOut]

/-- **One transaction of `CheckBlockTransactionsWithUTXO`.** -/
theorem checkTxInBlock_ok [Ed25519] {tx : Transaction} {scope scope' : BlockScope}
    (hcb : tx.isCoinbase = false) (h : checkTxInBlock u currentHeight i tx scope = .ok scope') :
    ∃ spent, TxAccepted u.getCoin tx spent ∧
      Claims scope.blockOutpoints (tx.inputs.map TxInput.outpoint) scope'.blockOutpoints ∧
      Claims scope.blockLeaves tx.leaves scope'.blockLeaves ∧
      (∀ key ∈ tx.leaves, u.isNoiseLeafSpent key = false) ∧
      (scope'.totalFees.toNat : Int) =
        scope.totalFees.toNat + (Coin.total spent - tx.valueOut) := by
  unfold checkTxInBlock at h
  obtain ⟨blockOutpoints, hclaim, h⟩ := bind_eq_ok.mp h
  obtain ⟨⟨⟩, hutxo, h⟩ := bind_eq_ok.mp h
  obtain ⟨blockLeaves, hverify, h⟩ := bind_eq_ok.mp h
  obtain ⟨txIn, hfeeIn, h⟩ := bind_eq_ok.mp h
  obtain ⟨hle, h⟩ := guard_eq_ok.mp h
  obtain ⟨hover, h⟩ := guard_eq_ok.mp h
  cases h
  have hutxo := quote_eq_ok.mp hutxo
  obtain ⟨spent, hfound, hrange, htotal, hpays⟩ := TxValidation.checkTransactionWithUTXO_ok hcb hutxo
  obtain ⟨⟨⟩, hcheck, -⟩ := bind_eq_ok.mp hutxo
  obtain ⟨hinputs, -, houtputs, houtTotal⟩ := TxValidation.checkTransaction_ok hcb hcheck
  obtain ⟨hproved, hleaves, hfresh⟩ :=
    TxValidation.verifyTransactionSignatures_ok hcb (quote_eq_ok.mp hverify)
  have hin := feeInputs_ok hfound hrange hfeeIn
  have hout := feeOutputs_eq houtputs houtTotal
  have hzero : (0 : UInt64).toNat = 0 := rfl
  have hsub : (txIn - feeOutputs tx.outputs).toNat = txIn.toNat - (feeOutputs tx.outputs).toNat :=
    UInt64.toNat_sub_of_le _ _ (UInt64.not_lt.mp hle)
  rw [UInt64.lt_iff_toNat_lt] at hle
  refine ⟨spent, ⟨hcb, hinputs, hfound, hrange, htotal, houtputs, hpays, hproved⟩,
    claimOutpoints_ok hclaim, hleaves, hfresh, ?_⟩
  have hadd := toNat_add_of_not_lt hover
  dsimp only
  omega

theorem checkTxsFrom_ok [Ed25519] :
    ∀ {txs : List Transaction} {i : Nat} {scope scope' : BlockScope},
      (∀ tx ∈ txs, tx.isCoinbase = false) → checkTxsFrom u currentHeight i txs scope = .ok scope' →
      ∃ spents, List.Forall₂ (TxAccepted u.getCoin) txs spents ∧
        Claims scope.blockOutpoints (spentBy txs) scope'.blockOutpoints ∧
        Claims scope.blockLeaves (txs.flatMap Transaction.leaves) scope'.blockLeaves ∧
        (∀ key ∈ txs.flatMap Transaction.leaves, u.isNoiseLeafSpent key = false) ∧
        (scope'.totalFees.toNat : Int) = scope.totalFees.toNat + feesOf txs spents
  | [], _, scope, scope', _, h => by
    cases h
    exact ⟨[], .nil, .nil, .nil, by simp, by simp [feesOf]⟩
  | tx :: rest, i, scope, scope', hcb, h => by
    unfold checkTxsFrom at h
    split at h
    case h_1 => cases h
    case h_2 scope₁ hone =>
      obtain ⟨hcb, hcbs⟩ := List.forall_mem_cons.mp hcb
      obtain ⟨spent, htx, houts, hleaves, hfresh, hfee⟩ := checkTxInBlock_ok hcb hone
      obtain ⟨spents, htxs, houts', hleaves', hfresh', hfees⟩ := checkTxsFrom_ok hcbs h
      refine ⟨spent :: spents, .cons htx htxs, houts.append houts', hleaves.append hleaves',
        fun key hkey => (List.mem_append.mp hkey).elim (hfresh key) (hfresh' key), ?_⟩
      rw [hfees, hfee, feesOf_cons]
      omega

/-- The coinbase takes no more than the subsidy and the miner's fees. -/
theorem checkCoinbaseValue_ok {coinbase : Transaction} {totalFees : UInt64}
    (h : checkCoinbaseValue coinbase currentHeight totalFees = .ok ()) :
    (∀ out ∈ coinbase.outputs, 0 ≤ out.value.toInt) ∧
      coinbase.valueOut ≤ (getBlockSubsidy currentHeight.toUInt64).toNat +
        (minerFeesAtHeight currentHeight totalFees).toNat := by
  obtain ⟨hover, h⟩ := guard_eq_ok.mp h
  obtain ⟨v, hv, h⟩ := bind_eq_ok.mp h
  obtain ⟨-, h⟩ := guard_eq_ok.mp h
  obtain ⟨hle, -⟩ := guard_eq_ok.mp h
  have hv' : coinbase.getValueOut = .ok v := by
    unfold rethrow at hv
    split at hv
    case h_1 hget => rw [hget, Except.ok.inj hv]
    case h_2 => cases hv
  obtain ⟨hnonneg, hpos, heq⟩ := Transaction.getValueOut_ok hv'
  have hsum := toNat_add_of_not_lt hover
  have hcast := toNat_toUInt64 hpos
  rw [gt_iff_lt, UInt64.lt_iff_toNat_lt, hsum] at hle
  exact ⟨hnonneg, by omega⟩

/-- **`CheckBlockTransactionsWithUTXO`**: the block is accepted next to the coins of the UTXO set,
and its leaves are unspent there. -/
theorem checkBlockTransactionsWithUTXO_ok [Ed25519] {block : Block} {coinbase : Transaction}
    {rest : List Transaction} (htxs : block.transactions = coinbase :: rest)
    (hcb : ∀ tx ∈ rest, tx.isCoinbase = false)
    (h : checkBlockTransactionsWithUTXO block u currentHeight = .ok ()) :
    ∃ spents, BlockAccepted u.getCoin currentHeight coinbase rest spents ∧
      ∀ key ∈ rest.flatMap Transaction.leaves, u.isNoiseLeafSpent key = false := by
  unfold checkBlockTransactionsWithUTXO at h
  rw [htxs] at h
  dsimp only at h
  obtain ⟨scope, hscope, hcoinbase⟩ := bind_eq_ok.mp h
  obtain ⟨spents, hall, houts, hleaves, hfresh, hfees⟩ := checkTxsFrom_ok hcb hscope
  obtain ⟨hnonneg, hreward⟩ := checkCoinbaseValue_ok hcoinbase
  refine ⟨spents, ⟨hall, houts.nodup, hleaves.nodup, hnonneg, ?_⟩, hfresh⟩
  have hzero : (0 : UInt64).toNat = 0 := rfl
  simp only [hzero] at hfees
  unfold minerFeesAtHeight at hreward
  by_cases hheight : currentHeight < FEES_TO_MINER_HEIGHT
  · rw [if_pos hheight] at hreward ⊢
    omega
  · rw [if_neg hheight] at hreward ⊢
    omega

end BlockValidation

end Moneu
