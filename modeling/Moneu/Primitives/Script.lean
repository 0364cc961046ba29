/-
# Scripts

`primitives/script.cpp`: a script is a byte vector.  Two templates exist, the payment to a
noise-bound key hash and the `OP_RETURN` data carrier; everything else is nonstandard.
-/
import Moneu.Primitives.Bytes

namespace Moneu

/-- `Script`, a `std::vector<uint8_t>`. -/
abbrev Script := List UInt8

def MAX_SCRIPT_SIZE : Nat := 10000

/-! ## 1. Opcodes -/

def OP_0 : UInt8 := 0x00
def OP_PUSHDATA1 : UInt8 := 0x4c
def OP_PUSHDATA2 : UInt8 := 0x4d
def OP_PUSHDATA4 : UInt8 := 0x4e
def OP_RETURN : UInt8 := 0x6a
def OP_DUP : UInt8 := 0x76
def OP_EQUALVERIFY : UInt8 := 0x88
def OP_SHA256 : UInt8 := 0xa8
def OP_CHECKSIG : UInt8 := 0xac

inductive TxoutType where
  | NONSTANDARD
  | PUBKEYHASH
  | NULL_DATA
  deriving DecidableEq

namespace Script

/-! ## 2. Building scripts -/

def pushData (script : Script) (data : List UInt8) : Script :=
  let len := data.length
  if len = 0 then script ++ [OP_0]
  else if len ≤ 75 then script ++ [UInt8.ofNat len] ++ data
  else if len ≤ 0xff then script ++ [OP_PUSHDATA1, UInt8.ofNat len] ++ data
  else if len ≤ 0xffff then script ++ [OP_PUSHDATA2] ++ leBytes 2 len ++ data
  else script ++ [OP_PUSHDATA4] ++ leBytes 4 len ++ data

def createPayToPubkeyHash (pubkeyHash : Bytes32) : Script :=
  pushData [OP_DUP, OP_SHA256] pubkeyHash.data ++ [OP_EQUALVERIFY, OP_CHECKSIG]

def createNullData (data : List UInt8) : Script := pushData [OP_RETURN] data

/-! ## 3. Reading scripts -/

/-- The payload of a push: `len` bytes, or failure when the script is shorter. -/
def payload (opcode : UInt8) (len : Nat) (rest : Script) : Option (UInt8 × List UInt8 × Script) :=
  if rest.length < len then none else some (opcode, rest.take len, rest.drop len)

/-- `Script::GetOp` on the script from `pc` on: the opcode, its payload and the rest. -/
def getOp : Script → Option (UInt8 × List UInt8 × Script)
  | [] => none
  | opcode :: rest =>
    if 0x01 ≤ opcode ∧ opcode ≤ 0x4b then payload opcode opcode.toNat rest
    else if opcode = OP_PUSHDATA1 then
      if rest.length < 1 then none
      else payload opcode (leValue (rest.take 1)) (rest.drop 1)
    else if opcode = OP_PUSHDATA2 then
      if rest.length < 2 then none
      else payload opcode (leValue (rest.take 2)) (rest.drop 2)
    else if opcode = OP_PUSHDATA4 then
      if rest.length < 4 then none
      else
        let len := leValue (rest.take 4)
        if len > MAX_SCRIPT_SIZE then none else payload opcode len (rest.drop 4)
    else some (opcode, [], rest)

def isPush (opcode : UInt8) : Bool :=
  opcode = OP_0 ∨ (0x01 ≤ opcode ∧ opcode ≤ 0x4b) ∨ opcode = OP_PUSHDATA1 ∨
    opcode = OP_PUSHDATA2 ∨ opcode = OP_PUSHDATA4

/-- The `while (pc < size)` loop of `Solver`: the concatenated payload, or `none` for a script
that does not parse or holds an operation that is no push.  Every turn consumes a byte, so as
many turns as there are bytes are enough. -/
def pushes : Nat → Script → Option (List UInt8)
  | _, [] => some []
  | 0, _ :: _ => none
  | n + 1, b :: s =>
    match getOp (b :: s) with
    | none => none
    | some (opcode, chunk, rest) =>
      if isPush opcode then (pushes n rest).map (chunk ++ ·) else none

def isUnspendable (script : Script) : Bool :=
  script.head? = some OP_RETURN ∨ script.length > MAX_SCRIPT_SIZE

/-- `ExtractPubkeyHash`, which is `IsPayToPubkeyHash(&hash)`: the exact template of 37 bytes. -/
def extractPubkeyHash (script : Script) : Option Bytes32 :=
  if h : script.length = 37 then
    if script[0]? = some OP_DUP ∧ script[1]? = some OP_SHA256 ∧ script[2]? = some 0x20 ∧
        script[35]? = some OP_EQUALVERIFY ∧ script[36]? = some OP_CHECKSIG then
      some (FixedBytes.take 32 (script.drop 3) (by simp [h]))
    else none
  else none

def solver (script : Script) : TxoutType × List (List UInt8) :=
  match extractPubkeyHash script with
  | some hash => (.PUBKEYHASH, [hash.data])
  | none =>
    match script with
    | [] => (.NONSTANDARD, [])
    | b :: rest =>
      if b = OP_RETURN then
        match pushes rest.length rest with
        | some data => (.NULL_DATA, [data])
        | none => (.NONSTANDARD, [])
      else (.NONSTANDARD, [])

/-! ## 4. What is built is recognised -/

theorem createPayToPubkeyHash_eq (pubkeyHash : Bytes32) : createPayToPubkeyHash pubkeyHash =
    [OP_DUP, OP_SHA256, 0x20] ++ pubkeyHash.data ++ [OP_EQUALVERIFY, OP_CHECKSIG] := by
  have hlen := pubkeyHash.size_eq
  simp [createPayToPubkeyHash, pushData, hlen]

theorem length_createPayToPubkeyHash (pubkeyHash : Bytes32) :
    (createPayToPubkeyHash pubkeyHash).length = 37 := by
  simp [createPayToPubkeyHash_eq, pubkeyHash.size_eq]

theorem isUnspendable_createPayToPubkeyHash (pubkeyHash : Bytes32) :
    isUnspendable (createPayToPubkeyHash pubkeyHash) = false := by
  have hhead : (createPayToPubkeyHash pubkeyHash).head? = some OP_DUP := by
    rw [createPayToPubkeyHash_eq]
    rfl
  rw [isUnspendable, hhead, length_createPayToPubkeyHash]
  rfl

theorem extractPubkeyHash_createPayToPubkeyHash (pubkeyHash : Bytes32) :
    extractPubkeyHash (createPayToPubkeyHash pubkeyHash) = some pubkeyHash := by
  have hlen := pubkeyHash.size_eq
  have hverify : (createPayToPubkeyHash pubkeyHash)[35]? = some OP_EQUALVERIFY := by
    rw [createPayToPubkeyHash_eq, List.getElem?_append_right (by simp [hlen])]
    simp [hlen]
  have hcheck : (createPayToPubkeyHash pubkeyHash)[36]? = some OP_CHECKSIG := by
    rw [createPayToPubkeyHash_eq, List.getElem?_append_right (by simp [hlen])]
    simp [hlen]
  have hdata : ((createPayToPubkeyHash pubkeyHash).drop 3).take 32 = pubkeyHash.data := by
    rw [createPayToPubkeyHash_eq]
    simp [hlen]
  unfold extractPubkeyHash
  rw [dif_pos (length_createPayToPubkeyHash _), if_pos]
  · simp only [FixedBytes.take, hdata]
  · refine ⟨?_, ?_, ?_, hverify, hcheck⟩
    all_goals simp [createPayToPubkeyHash_eq]

/-- **Only the template is recognised as a payment.** -/
theorem extractPubkeyHash_eq_some {script : Script} {pubkeyHash : Bytes32} :
    extractPubkeyHash script = some pubkeyHash ↔ script = createPayToPubkeyHash pubkeyHash := by
  constructor
  · intro h
    unfold extractPubkeyHash at h
    rw [Option.dite_none_right_eq_some] at h
    obtain ⟨hlen, h⟩ := h
    obtain ⟨⟨hdup, hsha, hpush, hverify, hcheck⟩, h⟩ := Option.ite_none_right_eq_some.mp h
    have hdata : (script.drop 3).take 32 = pubkeyHash.data := congrArg FixedBytes.data (Option.some.inj h)
    have hcut : script = script.take 3 ++ ((script.drop 3).take 32 ++ (script.drop 3).drop 32) := by
      rw [List.take_append_drop, List.take_append_drop]
    have hhead : script.take 3 = [OP_DUP, OP_SHA256, 0x20] := by
      simp [List.take_add_one, hdup, hsha, hpush]
    have htail : (script.drop 3).drop 32 = [OP_EQUALVERIFY, OP_CHECKSIG] := by
      rw [List.drop_drop, List.drop_eq_getElem?_toList_append, List.drop_eq_getElem?_toList_append, hverify,
        hcheck, List.drop_eq_nil_of_le (by omega)]
      rfl
    rw [hcut, hdata, hhead, htail, createPayToPubkeyHash_eq, List.append_assoc]
  · rintro rfl
    exact extractPubkeyHash_createPayToPubkeyHash pubkeyHash

theorem solver_createPayToPubkeyHash (pubkeyHash : Bytes32) :
    solver (createPayToPubkeyHash pubkeyHash) = (.PUBKEYHASH, [pubkeyHash.data]) := by
  simp only [solver, extractPubkeyHash_createPayToPubkeyHash]

/-- A script is a payment exactly if it is the template. -/
theorem solver_eq_pubkeyHash {script : Script} :
    (solver script).1 = .PUBKEYHASH ↔ ∃ pubkeyHash, script = createPayToPubkeyHash pubkeyHash := by
  constructor
  · intro h
    unfold solver at h
    split at h
    case h_1 pubkeyHash hextract => exact ⟨pubkeyHash, extractPubkeyHash_eq_some.mp hextract⟩
    case h_2 =>
      split at h
      · cases h
      · split at h
        · split at h <;> cases h
        · cases h
  · rintro ⟨pubkeyHash, rfl⟩
    rw [solver_createPayToPubkeyHash]

theorem payload_append (opcode : UInt8) (data rest : List UInt8) :
    payload opcode data.length (data ++ rest) = some (opcode, data, rest) := by
  simp [payload]

theorem pushData_append (script : Script) (data : List UInt8) :
    pushData script data = script ++ pushData [] data := by
  unfold pushData
  dsimp only
  split
  · simp
  · split
    · simp
    · split
      · simp
      · split
        · simp
        · simp

/-- **A push is read back, whatever follows it**: every length class has its own reader. -/
theorem getOp_pushData_append {data : List UInt8} (hlen : data.length ≤ 0xffff) (rest : List UInt8) :
    ∃ opcode, isPush opcode = true ∧ getOp (pushData [] data ++ rest) = some (opcode, data, rest) := by
  have hbyte : data.length ≤ 0xff → (UInt8.ofNat data.length).toNat = data.length := fun h => by
    rw [UInt8.toNat_ofNat', Nat.mod_eq_of_lt (by omega)]
  unfold pushData
  dsimp only
  split
  case isTrue hzero =>
    rw [List.length_eq_zero_iff.mp hzero]
    exact ⟨OP_0, rfl, rfl⟩
  case isFalse hpos =>
    split
    case isTrue hsmall =>
      have hop : 0x01 ≤ UInt8.ofNat data.length ∧ UInt8.ofNat data.length ≤ 0x4b := by
        rw [UInt8.le_iff_toNat_le, UInt8.le_iff_toNat_le, hbyte (by omega)]
        exact ⟨Nat.pos_of_ne_zero hpos, hsmall⟩
      refine ⟨UInt8.ofNat data.length, by simp [isPush, hop], ?_⟩
      rw [List.nil_append, List.append_assoc, List.singleton_append, getOp, if_pos hop,
        hbyte (by omega), payload_append]
    case isFalse =>
      split
      case isTrue hone =>
        have hvalue : leValue [UInt8.ofNat data.length] = data.length := by simp [leValue, hbyte hone]
        refine ⟨OP_PUSHDATA1, rfl, ?_⟩
        rw [List.nil_append, List.append_assoc, List.cons_append, getOp, if_neg (by decide), if_pos rfl,
          if_neg (by simp), List.singleton_append, List.take_succ_cons, List.take_zero, hvalue]
        exact payload_append _ data rest
      case isFalse =>
        have hvalue : leValue (leBytes 2 data.length) = data.length :=
          leValue_leBytes 2 _ (by omega)
        refine ⟨OP_PUSHDATA2, rfl, ?_⟩
        rw [List.nil_append, List.append_assoc, List.append_assoc, List.singleton_append, getOp,
          if_neg (by decide), if_neg (by decide), if_pos rfl,
          if_neg (by rw [List.length_append, length_leBytes]; omega),
          List.take_left' (length_leBytes 2 _), List.drop_left' (length_leBytes 2 _), hvalue,
          payload_append]

/-- **A list of pushes is read to its end.** -/
theorem pushes_flatMap {ds : List (List UInt8)} (hlen : ∀ d ∈ ds, d.length ≤ 0xffff) :
    ∀ {n : Nat}, (ds.flatMap (pushData [])).length ≤ n →
      pushes n (ds.flatMap (pushData [])) = some ds.flatten := by
  induction ds with
  | nil =>
    intro n _
    cases n <;> rfl
  | cons d ds ih =>
    intro n hn
    obtain ⟨hd, hds⟩ := List.forall_mem_cons.mp hlen
    obtain ⟨opcode, hpush, hget⟩ := getOp_pushData_append hd (ds.flatMap (pushData []))
    rw [List.flatMap_cons] at hn ⊢
    cases hbytes : pushData [] d with
    | nil =>
      have hnone := getOp_pushData_append hd []
      rw [hbytes] at hnone
      obtain ⟨_, -, hnone⟩ := hnone
      cases hnone
    | cons b bytes =>
      rw [hbytes, List.cons_append] at hget hn
      rw [List.length_cons, List.length_append] at hn
      obtain ⟨n, rfl⟩ := Nat.exists_eq_succ_of_ne_zero (show n ≠ 0 by omega)
      rw [List.cons_append, pushes, hget]
      simp [hpush, ih hds (show (ds.flatMap (pushData [])).length ≤ n by omega)]

theorem foldl_pushData (ds : List (List UInt8)) (script : Script) :
    ds.foldl pushData script = script ++ ds.flatMap (pushData []) := by
  induction ds generalizing script with
  | nil => simp
  | cons d ds ih => rw [List.foldl_cons, ih, pushData_append, List.flatMap_cons, List.append_assoc]

theorem extractPubkeyHash_return (rest : Script) : extractPubkeyHash (OP_RETURN :: rest) = none := by
  unfold extractPubkeyHash
  split
  · rw [if_neg]
    rintro ⟨hdup, -⟩
    exact absurd hdup (by simp [OP_RETURN, OP_DUP])
  · rfl

/-- **A data script is recognised**, with its data, however it was cut into pushes. -/
theorem solver_pushes {ds : List (List UInt8)} (hlen : ∀ d ∈ ds, d.length ≤ 0xffff) :
    solver (ds.foldl pushData [OP_RETURN]) = (.NULL_DATA, [ds.flatten]) := by
  rw [foldl_pushData, List.singleton_append]
  simp only [solver, extractPubkeyHash_return, pushes_flatMap hlen (Nat.le_refl _), ↓reduceIte]

theorem solver_createNullData {data : List UInt8} (hlen : data.length ≤ 0xffff) :
    solver (createNullData data) = (.NULL_DATA, [data]) := by
  have h := solver_pushes (List.forall_mem_singleton.mpr hlen)
  rwa [List.flatten_singleton] at h

theorem length_createNullData_le (data : List UInt8) :
    (createNullData data).length ≤ data.length + 6 := by
  unfold createNullData pushData
  dsimp only
  split
  · simp
  · split
    · simp
    · split
      · simp
      · split
        · simp
          omega
        · simp
          omega

end Script

end Moneu
