/-
# The pool and its indexes

Every change of the pool either takes an entry out of all tables or enters one into all of them.
So the four indexes mirror the table of entries at any time (`Rep`), the byte count is exact, and
the two loops that look at the first key of an index end, because each turn takes that key out.

All of this rests on the two counters.  A sequence number that comes up again would let a new key
replace the key of another entry: the last section runs the counter around once.
-/
import Moneu.Consensus.Mempool
import Moneu.Crypto.Sha256Nat
import Moneu.Lib.Index

namespace Moneu

open NetParams Index

namespace Mempool

/-! ## 1. The invariant -/

variable {p q : Mempool}

/-- **The tables agree.** -/
structure Rep (p : Mempool) : Prop where
  hash : ∀ {h e}, p.index.lookup h = some e → e.tx.getHash = h
  leafKeys : ∀ {h e}, p.index.lookup h = some e → e.leafKeys = (extractLeafKeys e.tx).1
  size : ∀ {h e}, p.index.lookup h = some e → e.size.toNat = e.tx.getSerializedSize true
  seq : ∀ {h e}, p.index.lookup h = some e → e.seq ≤ p.sequenceCounter
  byFeeRate : Mirrors (fun e => [e.feeKey]) p.index p.byFeeRate
  byTime : Mirrors (fun e => [e.timeKey]) p.index p.byTime
  spends : Mirrors (fun e => outpoints e.tx) p.index p.spends
  leafSpends : Mirrors Entry.leafKeys p.index p.leafSpends
  totalBytes : p.totalBytes.toNat = total (fun e => e.size.toNat) p.index

/-- The fields the admission policy changes play no part in it. -/
structure SameTables (p q : Mempool) : Prop where
  index : q.index = p.index
  byFeeRate : q.byFeeRate = p.byFeeRate
  byTime : q.byTime = p.byTime
  spends : q.spends = p.spends
  leafSpends : q.leafSpends = p.leafSpends
  sequenceCounter : q.sequenceCounter = p.sequenceCounter
  maxBytes : q.maxBytes = p.maxBytes
  totalBytes : q.totalBytes = p.totalBytes

theorem SameTables.refl (p : Mempool) : SameTables p p := ⟨rfl, rfl, rfl, rfl, rfl, rfl, rfl, rfl⟩

theorem SameTables.rep (h : SameTables p q) (hp : Rep p) : Rep q where
  hash := fun he => hp.hash (h.index ▸ he)
  leafKeys := fun he => hp.leafKeys (h.index ▸ he)
  size := fun he => hp.size (h.index ▸ he)
  seq := fun he => h.sequenceCounter ▸ hp.seq (h.index ▸ he)
  byFeeRate := by rw [h.index, h.byFeeRate]; exact hp.byFeeRate
  byTime := by rw [h.index, h.byTime]; exact hp.byTime
  spends := by rw [h.index, h.spends]; exact hp.spends
  leafSpends := by rw [h.index, h.leafSpends]; exact hp.leafSpends
  totalBytes := by rw [h.index, h.totalBytes]; exact hp.totalBytes

theorem rep_new (maxBytes : UInt64) : Rep (new maxBytes) where
  hash := fun he => absurd he (by simp [new])
  leafKeys := fun he => absurd he (by simp [new])
  size := fun he => absurd he (by simp [new])
  seq := fun he => absurd he (by simp [new])
  byFeeRate := Mirrors.empty
  byTime := Mirrors.empty
  spends := Mirrors.empty
  leafSpends := Mirrors.empty
  totalBytes := rfl

theorem Rep.clear : Rep p.clear where
  hash := fun he => absurd he (by simp [Mempool.clear])
  leafKeys := fun he => absurd he (by simp [Mempool.clear])
  size := fun he => absurd he (by simp [Mempool.clear])
  seq := fun he => absurd he (by simp [Mempool.clear])
  byFeeRate := Mirrors.empty
  byTime := Mirrors.empty
  spends := Mirrors.empty
  leafSpends := Mirrors.empty
  totalBytes := rfl

theorem Rep.index_eq_none (hp : Rep p) (hempty : p.byFeeRate.entries = []) (h : Bytes32) :
    p.index.lookup h = none := by
  cases he : p.index.lookup h with
  | none => rfl
  | some e =>
    have hfound := hp.byFeeRate.lookup_eq he (List.mem_singleton_self _)
    have hmem := AList.mem_lookup_iff.mp hfound
    rw [hempty] at hmem
    exact absurd hmem List.not_mem_nil

/-! ## 2. Taking entries out -/

/-- What is left after some entries have been taken out. -/
structure Shrinks (p q : Mempool) : Prop where
  rep : Rep q
  index : ∀ {h e}, q.index.lookup h = some e → p.index.lookup h = some e
  totalBytes : q.totalBytes ≤ p.totalBytes
  maxBytes : q.maxBytes = p.maxBytes
  sequenceCounter : q.sequenceCounter = p.sequenceCounter
  feeKeys : q.byFeeRate.keys.length ≤ p.byFeeRate.keys.length
  timeKeys : q.byTime.keys.length ≤ p.byTime.keys.length

theorem Rep.shrinks (hp : Rep p) : Shrinks p p :=
  ⟨hp, id, UInt64.le_refl _, rfl, rfl, le_refl _, le_refl _⟩

theorem Shrinks.trans {r : Mempool} (hpq : Shrinks p q) (hqr : Shrinks q r) : Shrinks p r where
  rep := hqr.rep
  index := fun he => hpq.index (hqr.index he)
  totalBytes := UInt64.le_trans hqr.totalBytes hpq.totalBytes
  maxBytes := hqr.maxBytes.trans hpq.maxBytes
  sequenceCounter := hqr.sequenceCounter.trans hpq.sequenceCounter
  feeKeys := hqr.feeKeys.trans hpq.feeKeys
  timeKeys := hqr.timeKeys.trans hpq.timeKeys

section RemoveEntry

variable {p : Mempool} {h : Bytes32} {e : Entry}

theorem lookup_removeEntry (h' : Bytes32) :
    (p.removeEntry h e).index.lookup h' = if h' = h then none else p.index.lookup h' := by
  change (p.index.erase h).lookup h' = _
  split
  case isTrue heq => rw [heq, AList.lookup_erase]
  case isFalse hne => exact AList.lookup_erase_ne hne

theorem Rep.mem_byFeeRate (hp : Rep p) (he : p.index.lookup h = some e) : e.feeKey ∈ p.byFeeRate :=
  AList.lookup_isSome.mp (by rw [hp.byFeeRate.lookup_eq he (List.mem_singleton_self _)]; rfl)

theorem Rep.mem_byTime (hp : Rep p) (he : p.index.lookup h = some e) : e.timeKey ∈ p.byTime :=
  AList.lookup_isSome.mp (by rw [hp.byTime.lookup_eq he (List.mem_singleton_self _)]; rfl)

theorem Rep.size_le (hp : Rep p) (he : p.index.lookup h = some e) : e.size ≤ p.totalBytes := by
  rw [UInt64.le_iff_toNat_le, hp.totalBytes, total_erase _ he]
  omega

theorem Rep.index_removeEntry {h' : Bytes32} {e' : Entry}
    (he : (p.removeEntry h e).index.lookup h' = some e') : p.index.lookup h' = some e' := by
  rw [lookup_removeEntry] at he
  split at he
  · cases he
  · exact he

theorem Rep.removeEntry (hp : Rep p) (he : p.index.lookup h = some e) :
    Shrinks p (p.removeEntry h e) := by
  have hle := hp.size_le he
  have hbytes : (p.totalBytes - e.size).toNat = p.totalBytes.toNat - e.size.toNat :=
    UInt64.toNat_sub_of_le _ _ hle
  have hfee := length_keys_erase (hp.mem_byFeeRate he)
  have htime := length_keys_erase (hp.mem_byTime he)
  refine
    { rep :=
        { hash := fun hq => hp.hash (index_removeEntry hq)
          leafKeys := fun hq => hp.leafKeys (index_removeEntry hq)
          size := fun hq => hp.size (index_removeEntry hq)
          seq := fun hq => hp.seq (index_removeEntry hq)
          byFeeRate := hp.byFeeRate.erase he
          byTime := hp.byTime.erase he
          spends := hp.spends.erase he
          leafSpends := hp.leafSpends.erase he
          totalBytes := ?_ }
      index := index_removeEntry
      totalBytes := ?_
      maxBytes := rfl
      sequenceCounter := rfl
      feeKeys := (by change (p.byFeeRate.erase e.feeKey).keys.length ≤ _; omega)
      timeKeys := (by change (p.byTime.erase e.timeKey).keys.length ≤ _; omega) }
  · change (p.totalBytes - e.size).toNat = total _ (p.index.erase h)
    rw [hbytes, hp.totalBytes, total_erase _ he]
    omega
  · rw [UInt64.le_iff_toNat_le]
    change (p.totalBytes - e.size).toNat ≤ _
    omega

end RemoveEntry

theorem Rep.removeLocked (hp : Rep p) (h : Bytes32) : Shrinks p (p.removeLocked h).1 := by
  unfold Mempool.removeLocked
  cases he : p.index.lookup h with
  | none => exact hp.shrinks
  | some e => exact hp.removeEntry he

theorem lookup_removeLocked (p : Mempool) (h h' : Bytes32) :
    (p.removeLocked h).1.index.lookup h' = if h' = h then none else p.index.lookup h' := by
  unfold Mempool.removeLocked
  cases he : p.index.lookup h with
  | none =>
    by_cases hh : h' = h
    · rw [if_pos hh, hh]
      exact he
    · rw [if_neg hh]
  | some e => exact lookup_removeEntry h'

theorem lookup_foldl_removeLocked (h' : Bytes32) : ∀ (hs : List Bytes32) (p : Mempool),
    (hs.foldl (fun p h => (p.removeLocked h).1) p).index.lookup h' =
      if h' ∈ hs then none else p.index.lookup h'
  | [], p => by simp
  | h :: hs, p => by
    rw [List.foldl_cons, lookup_foldl_removeLocked h' hs, lookup_removeLocked]
    by_cases hh : h' = h
    · simp [hh]
    · simp [hh]

/-- **`RemoveRecursiveLocked`** takes out what `CollectDescendantsLocked` has collected. -/
theorem lookup_removeRecursive (p : Mempool) (h h' : Bytes32) :
    (p.removeRecursive h).index.lookup h' =
      if h' ∈ p.collectDescendants h then none else p.index.lookup h' := by
  unfold Mempool.removeRecursive
  rw [lookup_foldl_removeLocked]
  simp only [List.mem_reverse]

theorem mem_collectDescendants (p : Mempool) (h : Bytes32) : h ∈ p.collectDescendants h :=
  Worklist.subset_explore _ _ _ (List.mem_singleton_self h)

theorem sameTables_blockPassed (p : Mempool) :
    SameTables p { p with blockSinceFeeBump := true } := ⟨rfl, rfl, rfl, rfl, rfl, rfl, rfl, rfl⟩

theorem SameTables.shrinks (h : SameTables p q) (hp : Rep p) : Shrinks p q where
  rep := h.rep hp
  index := fun he => h.index ▸ he
  totalBytes := h.totalBytes ▸ UInt64.le_refl _
  maxBytes := h.maxBytes
  sequenceCounter := h.sequenceCounter
  feeKeys := h.byFeeRate ▸ le_refl _
  timeKeys := h.byTime ▸ le_refl _

/-- `q` is what is left of `p` after some calls of `RemoveLocked`. -/
inductive Loses (p : Mempool) : Mempool → Prop
  | refl : Loses p p
  | entry {q : Mempool} (h : Bytes32) : Loses p q → Loses p (q.removeLocked h).1
  | aside {q r : Mempool} : Loses p q → SameTables q r → Loses p r

theorem Loses.shrinks (h : Loses p q) (hp : Rep p) : Shrinks p q := by
  induction h with
  | refl => exact hp.shrinks
  | entry h _ ih => exact ih.trans (ih.rep.removeLocked h)
  | aside _ hsame ih => exact ih.trans (hsame.shrinks ih.rep)

theorem Loses.lookup (h : Loses p q) {hash : Bytes32} {e : Entry} (he : q.index.lookup hash = some e) :
    p.index.lookup hash = some e := by
  induction h with
  | refl => exact he
  | entry _ _ ih =>
    rw [lookup_removeLocked] at he
    split at he
    · cases he
    · exact ih he
  | aside _ hsame ih => exact ih (hsame.index ▸ he)

theorem Loses.foldl (hs : List Bytes32) (h : Loses p q) :
    Loses p (hs.foldl (fun q h => (q.removeLocked h).1) q) := by
  induction hs generalizing q with
  | nil => exact h
  | cons hash hs ih => exact ih (h.entry hash)

/-- `q` is what is left of `p` after some calls of `RemoveRecursiveLocked`. -/
inductive Cuts (p : Mempool) : Mempool → Prop
  | refl : Cuts p p
  | branch {q : Mempool} (h : Bytes32) : Cuts p q → Cuts p (q.removeRecursive h)
  | aside {q r : Mempool} : Cuts p q → SameTables q r → Cuts p r

theorem Cuts.loses (h : Cuts p q) : Loses p q := by
  induction h with
  | refl => exact .refl
  | branch h _ ih => exact ih.foldl _
  | aside _ hsame ih => exact ih.aside hsame

theorem Cuts.foldl {α : Type} {f : Mempool → α → Mempool} (hf : ∀ {q} a, Cuts p q → Cuts p (f q a))
    (l : List α) (h : Cuts p q) : Cuts p (l.foldl f q) := by
  induction l generalizing q with
  | nil => exact h
  | cons a l ih => exact ih (hf a h)

theorem Cuts.removeConflicting (h : Cuts p q) (found : Option Bytes32) :
    Cuts p (q.removeConflicting found) := by
  cases found with
  | none => exact h
  | some hash => exact h.branch hash

theorem Cuts.removeConfirmed (tx : Transaction) (h : Cuts p q) : Cuts p (q.removeConfirmed tx) := by
  unfold Mempool.removeConfirmed
  split
  case isTrue => exact h
  case isFalse =>
    have hspends := Cuts.foldl (f := fun q o => q.removeConflicting (q.spends.lookup o))
      (fun _ hq => hq.removeConflicting _) (outpoints tx) (h.branch tx.getHash)
    simp only
    split
    case isTrue =>
      exact Cuts.foldl (f := fun q k => q.removeConflicting (q.leafSpends.lookup k))
        (fun _ hq => hq.removeConflicting _) _ hspends
    case isFalse => exact hspends

theorem cuts_removeForBlock (p : Mempool) (blockTxs : List Transaction) :
    Cuts p (p.removeForBlock blockTxs) :=
  (Cuts.foldl Cuts.removeConfirmed blockTxs .refl).aside (sameTables_blockPassed _)

/-! ## 3. The loops end -/

variable {m : RankMap} {slot : Sigma fun _ : RankKey => Bytes32}

theorem first_mem (h : RankMap.first m = some slot) : m.lookup slot.1 = some slot.2 :=
  AList.mem_lookup_iff.mpr (List.argmin_mem (Option.mem_def.mpr h))

theorem first_le {k : RankKey} {h : Bytes32} (hfirst : RankMap.first m = some slot)
    (hk : m.lookup k = some h) :
    RankKey.rank slot.1 ≤ RankKey.rank k :=
  List.le_of_mem_argmin (f := fun slot : Sigma fun _ : RankKey => Bytes32 => RankKey.rank slot.1)
    (AList.mem_lookup_iff.mp hk) (Option.mem_def.mpr hfirst)

theorem length_keys_pos (h : RankMap.first m = some slot) : 0 < m.keys.length :=
  List.length_pos_of_mem (AList.lookup_isSome.mp (by rw [first_mem h]; rfl))

/-- Another turn of `ExpireLocked`. -/
def Expiring (cutoff : Int64) (p : Mempool) : Prop :=
  ∃ slot, p.byTime.first = some slot ∧ slot.1.1 < cutoff

/-- Another turn of `TrimLocked`. -/
def Trimming (p : Mempool) : Prop := p.totalBytes > p.maxBytes ∧ p.byFeeRate.first ≠ none

section Expire

variable {p : Mempool} {h : Bytes32} {e : Entry} {cutoff : Int64}

theorem timeKeys_removeLocked (hp : Rep p) (he : p.index.lookup h = some e) :
    (p.removeLocked h).1.byTime.keys.length + 1 = p.byTime.keys.length := by
  unfold Mempool.removeLocked
  rw [he]
  exact length_keys_erase (hp.mem_byTime he)

/-- An entry that has not expired does not come up as the first one while others have. -/
theorem Rep.first_expired (hp : Rep p) (hfirst : p.byTime.first = some slot) :
    ∃ e, p.index.lookup slot.2 = some e ∧ e.timeKey = slot.1 := by
  obtain ⟨e, he, hk⟩ := (hp.byTime slot.1 slot.2).mp (first_mem hfirst)
  exact ⟨e, he, (List.mem_singleton.mp hk).symm⟩

theorem Loses.expireLoop : ∀ (fuel : Nat) {q : Mempool}, Loses p q → Loses p (expireLoop cutoff fuel q)
  | 0, _, h => h
  | fuel + 1, q, h => by
    unfold Mempool.expireLoop
    split
    · exact h
    · split
      · exact Loses.expireLoop fuel (h.entry _)
      · exact h

theorem loses_expireLocked (p : Mempool) (now : Int64) : Loses p (p.expireLocked now) :=
  Loses.expireLoop _ .refl

theorem Rep.expireLocked (hp : Rep p) (now : Int64) : Shrinks p (p.expireLocked now) :=
  (loses_expireLocked p now).shrinks hp

/-- **The loop of `ExpireLocked` ends**, and it takes out expired entries only. -/
theorem Rep.expireLoop : ∀ (fuel : Nat) {p : Mempool}, Rep p → p.byTime.keys.length ≤ fuel →
    ¬ Expiring cutoff (Mempool.expireLoop cutoff fuel p) ∧
      ∀ {h e}, p.index.lookup h = some e → ¬ e.entryTime < cutoff →
        (Mempool.expireLoop cutoff fuel p).index.lookup h = some e
  | 0, p, hp, hfuel => by
    refine ⟨?_, fun he _ => he⟩
    rintro ⟨slot, hfirst, -⟩
    have hpos : 0 < p.byTime.keys.length := length_keys_pos hfirst
    omega
  | fuel + 1, p, hp, hfuel => by
    unfold Mempool.expireLoop
    cases hfirst : p.byTime.first with
    | none =>
      refine ⟨?_, fun he _ => he⟩
      rintro ⟨slot, hslot, -⟩
      exact absurd (hfirst.symm.trans hslot) (by simp)
    | some slot =>
      obtain ⟨old, hold, hkey⟩ := hp.first_expired hfirst
      by_cases hlt : slot.1.1 < cutoff
      · simp only [hlt, ↓reduceIte]
        have hcount := timeKeys_removeLocked hp hold
        obtain ⟨hdone, hkept⟩ := Rep.expireLoop fuel (hp.removeLocked slot.2).rep (by omega)
        refine ⟨hdone, ?_⟩
        intro h e he hyoung
        refine hkept ?_ hyoung
        rw [lookup_removeLocked, if_neg ?_]
        · exact he
        -- the entry taken out has expired
        · rintro rfl
          rw [hold] at he
          cases he
          exact hyoung (by rw [← hkey] at hlt; exact hlt)
      · simp only [hlt, ↓reduceIte]
        refine ⟨?_, fun he _ => he⟩
        rintro ⟨slot', hslot', hlt'⟩
        rw [hfirst] at hslot'
        cases hslot'
        exact hlt hlt'

theorem Rep.expireLocked_ended (hp : Rep p) (now : Int64) :
    ¬ Expiring (Mempool.cutoff now) (p.expireLocked now) :=
  (hp.expireLoop _ (le_refl _)).1

theorem not_lt_of_rank {a b : RankKey} (h : RankKey.rank a ≤ RankKey.rank b) (c : Int64)
    (ha : ¬ a.1 < c) : ¬ b.1 < c := by
  intro hb
  rw [Int64.lt_iff_toInt_lt] at ha hb
  rcases Prod.Lex.le_iff.mp h with h | ⟨h, -⟩
  · have hlt : a.1.toInt < b.1.toInt := h
    omega
  · have heq : a.1.toInt = b.1.toInt := h
    omega

/-- **What `ExpireLocked` leaves**: the entries that have not expired. -/
theorem Rep.lookup_expireLocked (hp : Rep p) (now : Int64) :
    (p.expireLocked now).index.lookup h = some e ↔
      p.index.lookup h = some e ∧ ¬ e.entryTime < Mempool.cutoff now := by
  obtain ⟨hdone, hkept⟩ := @Rep.expireLoop (Mempool.cutoff now) _ p hp (le_refl _)
  have hshrinks := hp.expireLocked now
  constructor
  · intro he
    refine ⟨hshrinks.index he, ?_⟩
    have hfound := hshrinks.rep.byTime.lookup_eq he (List.mem_singleton_self e.timeKey)
    cases hfirst : (p.expireLocked now).byTime.first with
    | none =>
      have hnil := List.argmin_eq_none.mp hfirst
      have hmem := AList.mem_lookup_iff.mp hfound
      change Sigma.mk e.timeKey h ∈ (p.expireLocked now).byTime.entries at hmem
      rw [hnil] at hmem
      exact absurd hmem List.not_mem_nil
    | some slot =>
      refine not_lt_of_rank (first_le hfirst hfound) _ fun hlt => hdone ⟨slot, hfirst, hlt⟩
  · rintro ⟨he, hyoung⟩
    exact hkept he hyoung

end Expire

section Trim

variable [Doubles] {p : Mempool} {h : Bytes32} {e : Entry}

omit [Doubles] in
theorem feeKeys_removeLocked (hp : Rep p) (he : p.index.lookup h = some e) :
    (p.removeLocked h).1.byFeeRate.keys.length + 1 = p.byFeeRate.keys.length := by
  unfold Mempool.removeLocked
  rw [he]
  exact length_keys_erase (hp.mem_byFeeRate he)

omit [Doubles] in
theorem feeKeys_foldl_removeLocked : ∀ (hs : List Bytes32) {p : Mempool}, Rep p → h ∈ hs →
    p.index.lookup h = some e →
      (hs.foldl (fun p h => (p.removeLocked h).1) p).byFeeRate.keys.length < p.byFeeRate.keys.length
  | h' :: hs, p, hp, hmem, he => by
    have hturn := hp.removeLocked h'
    by_cases hh : h = h'
    · subst hh
      have hcount := feeKeys_removeLocked hp he
      have hrest := ((Loses.refl.foldl hs).shrinks hturn.rep).feeKeys
      simp only [List.foldl_cons]
      omega
    · have hrest : h ∈ hs := (List.mem_cons.mp hmem).resolve_left hh
      have hlater := feeKeys_foldl_removeLocked hs hturn.rep hrest
        (by rw [lookup_removeLocked, if_neg hh]; exact he)
      have hle := hturn.feeKeys
      simp only [List.foldl_cons]
      omega

theorem sameTables_bumpRate (p : Mempool) (now rate : Int64) : SameTables p (p.bumpRate now rate) := by
  unfold bumpRate
  simp only
  split
  · exact ⟨rfl, rfl, rfl, rfl, rfl, rfl, rfl, rfl⟩
  · exact SameTables.refl p

theorem Cuts.trimLoop (now : Int64) : ∀ (fuel : Nat) {q : Mempool}, Cuts p q →
    Cuts p (trimLoop now fuel q)
  | 0, _, h => h
  | fuel + 1, q, h => by
    unfold Mempool.trimLoop
    split
    · split
      · exact h
      · exact Cuts.trimLoop now fuel ((h.aside (sameTables_bumpRate q now _)).branch _)
    · exact h

theorem cuts_trimLocked (p : Mempool) (now : Int64) : Cuts p (p.trimLocked now) :=
  Cuts.trimLoop now _ .refl

theorem Rep.trimLoop (now : Int64) : ∀ (fuel : Nat) {p : Mempool}, Rep p →
    p.byFeeRate.keys.length ≤ fuel → ¬ Trimming (Mempool.trimLoop now fuel p)
  | 0, p, hp, hfuel => by
    rintro ⟨-, hsome⟩
    obtain ⟨slot, hfirst⟩ := Option.ne_none_iff_exists'.mp hsome
    have hpos : 0 < p.byFeeRate.keys.length := length_keys_pos hfirst
    omega
  | fuel + 1, p, hp, hfuel => by
    unfold Mempool.trimLoop
    by_cases hover : p.totalBytes > p.maxBytes
    · simp only [hover, ↓reduceIte]
      cases hfirst : p.byFeeRate.first with
      | none => exact fun htrim => htrim.2 hfirst
      | some slot =>
        have hsame := sameTables_bumpRate p now slot.1.1
        have hbump := hsame.shrinks hp
        obtain ⟨e, he, -⟩ := (hp.byFeeRate slot.1 slot.2).mp (first_mem hfirst)
        have he' : (p.bumpRate now slot.1.1).index.lookup slot.2 = some e := by
          rw [hsame.index]; exact he
        have hcount : ((p.bumpRate now slot.1.1).removeRecursive slot.2).byFeeRate.keys.length <
            p.byFeeRate.keys.length := by
          rw [← hsame.byFeeRate]
          exact feeKeys_foldl_removeLocked _ hbump.rep
            (List.mem_reverse.mpr (mem_collectDescendants _ _)) he'
        exact Rep.trimLoop now fuel ((Cuts.refl.branch slot.2).loses.shrinks hbump.rep).rep (by omega)
    · simp only [hover, ↓reduceIte]
      exact fun htrim => hover htrim.1

theorem Rep.trimLocked (hp : Rep p) (now : Int64) : Shrinks p (p.trimLocked now) :=
  (cuts_trimLocked p now).loses.shrinks hp

theorem Rep.trimLocked_ended (hp : Rep p) (now : Int64) : ¬ Trimming (p.trimLocked now) :=
  hp.trimLoop now _ (le_refl _)

omit [Doubles] in
/-- **A pool that is done with trimming fits**: with no entry left there is no byte left. -/
theorem Rep.le_maxBytes (hp : Rep p) (hdone : ¬ Trimming p) : p.totalBytes ≤ p.maxBytes := by
  by_contra hover
  have hover : p.totalBytes > p.maxBytes := UInt64.not_le.mp hover
  have hnone : p.byFeeRate.first = none := by
    by_contra hsome
    exact hdone ⟨hover, hsome⟩
  have hempty : p.index.entries = [] := by
    rw [List.eq_nil_iff_forall_not_mem]
    intro slot hslot
    have hfound : p.index.lookup slot.1 = some slot.2 := AList.mem_lookup_iff.mpr hslot
    rw [hp.index_eq_none (List.argmin_eq_none.mp hnone)] at hfound
    cases hfound
  have hzero : p.totalBytes.toNat = 0 := by
    rw [hp.totalBytes, total, hempty]
    rfl
  have hlt : p.maxBytes.toNat < p.totalBytes.toNat := UInt64.lt_iff_toNat_lt.mp hover
  omega

end Trim

/-! ## 4. Entering a transaction -/

section Insert

variable {p : Mempool} {now : Int64} {tx : Transaction} {fee : Int64}

/-- Neither counter wraps when the transaction is entered. -/
structure Room (p : Mempool) (tx : Transaction) : Prop where
  seq : p.sequenceCounter.toNat + 1 < 2 ^ 64
  bytes : p.totalBytes.toNat + (sizeOf tx).toNat < 2 ^ 64

theorem Shrinks.room (h : Shrinks p q) (hroom : Room p tx) : Room q tx where
  seq := h.sequenceCounter ▸ hroom.seq
  bytes := by
    have hle := UInt64.le_iff_toNat_le.mp h.totalBytes
    have := hroom.bytes
    omega

def entryOf (p : Mempool) (now : Int64) (tx : Transaction) (fee : Int64) : Entry :=
  { tx, fee, size := sizeOf tx, feePerK := feeRate fee (sizeOf tx), seq := p.sequenceCounter + 1,
    entryTime := now, leafKeys := (extractLeafKeys tx).1 }

theorem lookup_insertEntry (h : Bytes32) :
    (p.insertEntry now tx fee).index.lookup h =
      if h = tx.getHash then some (p.entryOf now tx fee) else p.index.lookup h := by
  change (p.index.insert tx.getHash (p.entryOf now tx fee)).lookup h = _
  split
  case isTrue heq => rw [heq, AList.lookup_insert]
  case isFalse hne => exact AList.lookup_insert_ne hne

theorem of_lookup_insertEntry {h : Bytes32} {e : Entry}
    (he : (p.insertEntry now tx fee).index.lookup h = some e) :
    (h = tx.getHash ∧ e = p.entryOf now tx fee) ∨ p.index.lookup h = some e := by
  rw [lookup_insertEntry] at he
  split at he
  case isTrue heq => exact .inl ⟨heq, (Option.some.inj he).symm⟩
  case isFalse => exact .inr he

theorem not_conflicts (h : p.conflicts tx = false) :
    (∀ o ∈ outpoints tx, o ∉ p.spends) ∧ (∀ k ∈ (extractLeafKeys tx).1, k ∉ p.leafSpends) ∧
      (extractLeafKeys tx).1.Nodup := by
  simpa [conflicts, and_assoc] using h

/-- **A sequence number that has not been used gives new keys.** -/
theorem Rep.seq_new (hp : Rep p) (hroom : Room p tx) {h : Bytes32} {e : Entry}
    (he : p.index.lookup h = some e) : e.seq ≠ p.sequenceCounter + 1 := by
  intro heq
  have hle := UInt64.le_iff_toNat_le.mp (hp.seq he)
  have hone : (1 : UInt64).toNat = 1 := rfl
  have hroom := hroom.seq
  rw [heq, UInt64.toNat_add, hone] at hle
  omega

theorem Rep.key_new (hp : Rep p) (hroom : Room p tx) {ix : RankMap} {key : Entry → RankKey}
    (hkey : ∀ e, (key e).2 = e.seq) (hix : Mirrors (fun e => [key e]) p.index ix) :
    ∀ k ∈ [key (p.entryOf now tx fee)], k ∉ ix := by
  intro k hk hmem
  obtain ⟨h, hfound⟩ := Option.isSome_iff_exists.mp (AList.lookup_isSome.mpr hmem)
  obtain ⟨e, he, hke⟩ := (hix k h).mp hfound
  refine hp.seq_new hroom he ?_
  rw [← hkey e, ← List.mem_singleton.mp hke, List.mem_singleton.mp hk, hkey]
  rfl

/-- **A new transaction is entered into all tables.** -/
theorem Rep.insertEntry (hp : Rep p) (hroom : Room p tx) (hnew : tx.getHash ∉ p.index)
    (hfree : p.conflicts tx = false) (hsize : (sizeOf tx).toNat = tx.getSerializedSize true) :
    Rep (p.insertEntry now tx fee) := by
  obtain ⟨hspends, hleaves, -⟩ := not_conflicts hfree
  have hseq := hroom.seq
  have hbytes := hroom.bytes
  have hone : (1 : UInt64).toNat = 1 := rfl
  have hcount : (p.sequenceCounter + 1).toNat = p.sequenceCounter.toNat + 1 := by
    rw [UInt64.toNat_add, hone, Nat.mod_eq_of_lt hseq]
  exact
    { hash := fun he => by
        rcases of_lookup_insertEntry he with ⟨rfl, rfl⟩ | he
        · rfl
        · exact hp.hash he
      leafKeys := fun he => by
        rcases of_lookup_insertEntry he with ⟨rfl, rfl⟩ | he
        · rfl
        · exact hp.leafKeys he
      size := fun he => by
        rcases of_lookup_insertEntry he with ⟨rfl, rfl⟩ | he
        · exact hsize
        · exact hp.size he
      seq := fun he => by
        rcases of_lookup_insertEntry he with ⟨rfl, rfl⟩ | he
        · exact UInt64.le_refl _
        · have hle := UInt64.le_iff_toNat_le.mp (hp.seq he)
          rw [UInt64.le_iff_toNat_le]
          change _ ≤ (p.sequenceCounter + 1).toNat
          omega
      byFeeRate := hp.byFeeRate.insert hnew (hp.key_new hroom (fun _ => rfl) hp.byFeeRate)
      byTime := hp.byTime.insert hnew (hp.key_new hroom (fun _ => rfl) hp.byTime)
      spends := hp.spends.insert hnew hspends
      leafSpends := hp.leafSpends.insert hnew hleaves
      totalBytes := by
        change (p.totalBytes + sizeOf tx).toNat =
          total _ (p.index.insert tx.getHash (p.entryOf now tx fee))
        rw [total_insert _ hnew, UInt64.toNat_add, Nat.mod_eq_of_lt hbytes, hp.totalBytes]
        exact Nat.add_comm _ _ }

end Insert

/-! ## 5. `AddTransaction` -/

section Add

variable [Doubles] {p q : Mempool} {now : Int64} {tx : Transaction} {fee : Int64}

theorem sameTables_getMinFeeRate (p : Mempool) (now : Int64) :
    SameTables p (p.getMinFeeRate now).1 := by
  unfold getMinFeeRate
  split
  · exact SameTables.refl p
  · split
    · simp only
      split <;> exact ⟨rfl, rfl, rfl, rfl, rfl, rfl, rfl, rfl⟩
    · exact SameTables.refl p

omit [Doubles] in
theorem SameTables.chainTooLong (h : SameTables p q) : q.chainTooLong tx = p.chainTooLong tx := by
  obtain ⟨hindex, hfee, htime, hspends, hleaf, hseq, hmax, htotal⟩ := h
  cases q
  simp only at hindex hfee htime hspends hleaf hseq hmax htotal
  subst hindex hfee htime hspends hleaf hseq hmax htotal
  rfl

theorem checkPolicy_spec (p : Mempool) (now : Int64) (tx : Transaction) (fee : Int64) :
    SameTables p (p.checkPolicy now tx fee).1 ∧
      ((p.checkPolicy now tx fee).2 = true ↔ p.conflicts tx = false ∧ sizeOf tx ≠ 0 ∧
        ¬ feeRate fee (sizeOf tx) < (p.getMinFeeRate now).2 ∧ p.chainTooLong tx = false) := by
  have hsame := sameTables_getMinFeeRate p now
  unfold checkPolicy
  split
  case isTrue hconf => exact ⟨SameTables.refl p, by simp [hconf]⟩
  case isFalse hconf =>
    split
    case isTrue hsize => exact ⟨SameTables.refl p, by simp [hsize]⟩
    case isFalse hsize =>
      simp only
      split
      case isTrue hrate => exact ⟨hsame, by simp [hrate]⟩
      case isFalse hrate =>
        refine ⟨hsame, ?_⟩
        rw [hsame.chainTooLong]
        simp [hconf, hsize, hrate]

/-- The transaction gets as far as the tables. -/
structure Enters (p : Mempool) (now : Int64) (tx : Transaction) (fee : Int64) : Prop where
  valid : p.validateForPool tx fee = .ok true
  policy : (p.checkPolicy now tx fee).2 = true

/-- The pool that is handed to `TrimLocked`. -/
def entered (p : Mempool) (now : Int64) (tx : Transaction) (fee : Int64) : Mempool :=
  (p.checkPolicy now tx fee).1.insertEntry now tx fee

/-- **`AddTransaction`** refuses after expiry, or it enters the transaction and trims. -/
theorem addTransaction_cases (p : Mempool) (now : Int64) (tx : Transaction) (fee : Int64) :
    (¬ Enters (p.expireLocked now) now tx fee ∧
        SameTables (p.expireLocked now) (p.addTransaction now tx fee).1 ∧
        (p.addTransaction now tx fee).2 ≠ .ret true) ∨
      (Enters (p.expireLocked now) now tx fee ∧
        (p.addTransaction now tx fee).1 = ((p.expireLocked now).entered now tx fee).trimLocked now ∧
        (p.addTransaction now tx fee).2 =
          .ret ((p.addTransaction now tx fee).1.hasTransaction tx.getHash)) := by
  unfold addTransaction
  generalize p.expireLocked now = r
  simp only
  cases hvalid : r.validateForPool tx fee with
  | error what =>
    refine .inl ⟨fun h => ?_, SameTables.refl r, by simp⟩
    exact absurd (hvalid.symm.trans h.valid) (by simp)
  | ok valid =>
    cases valid with
    | false =>
      refine .inl ⟨fun h => ?_, SameTables.refl r, by simp⟩
      exact absurd (hvalid.symm.trans h.valid) (by simp)
    | true =>
      have hsame := (checkPolicy_spec r now tx fee).1
      simp only [admitChecked, entered]
      rcases hpolicy : r.checkPolicy now tx fee with ⟨q, ok⟩
      rw [hpolicy] at hsame
      cases ok with
      | false =>
        refine .inl ⟨fun h => ?_, hsame, by simp⟩
        exact absurd h.policy (by rw [hpolicy]; simp)
      | true => exact .inr ⟨⟨hvalid, by rw [hpolicy]⟩, rfl, rfl⟩

omit [Doubles] in
theorem validateForPool_ok (h : p.validateForPool tx fee = .ok true) :
    tx.isValid = .ok true ∧ tx.isCoinbase = false ∧ tx.getHash ∉ p.index := by
  unfold validateForPool at h
  split at h
  · cases h
  · cases h
  next hvalid =>
    split at h
    · cases h
    next hcoinbase =>
      split at h
      · cases h
      split at h
      · cases h
      next hnew => exact ⟨hvalid, by simpa using hcoinbase, by simpa [hasTransaction] using hnew⟩

omit [Doubles] in
theorem size_of_isValid (h : tx.isValid = .ok true) :
    tx.getSerializedSize true ≤ Transaction.MAX_TX_SIZE := by
  unfold Transaction.isValid at h
  split at h
  · cases h
  split at h
  · cases h
  next hsize => exact Nat.le_of_not_lt hsize

omit [Doubles] in
theorem toNat_sizeOf (h : tx.getSerializedSize true ≤ Transaction.MAX_TX_SIZE) :
    (sizeOf tx).toNat = tx.getSerializedSize true := by
  simp only [Transaction.MAX_TX_SIZE] at h
  rw [sizeOf, UInt64.toNat_ofNat', Nat.mod_eq_of_lt (by omega)]

/-- **What is entered keeps the tables in order.** -/
theorem Rep.entered (hp : Rep p) (hroom : Room p tx) (h : Enters p now tx fee) :
    Rep (p.entered now tx fee) := by
  obtain ⟨hsame, hpolicy⟩ := checkPolicy_spec p now tx fee
  obtain ⟨hfree, -, -, -⟩ := hpolicy.mp h.policy
  obtain ⟨hvalid, -, hnew⟩ := validateForPool_ok h.valid
  refine Rep.insertEntry (hsame.rep hp) ((hsame.shrinks hp).room hroom) (by rw [hsame.index]; exact hnew)
    ?_ (toNat_sizeOf (size_of_isValid hvalid))
  rw [← hfree, conflicts, conflicts, hsame.spends, hsame.leafSpends]

omit [Doubles] in
theorem expireLocked_of_not_expiring (h : ¬ Expiring (Mempool.cutoff now) p) :
    p.expireLocked now = p := by
  unfold Mempool.expireLocked
  cases p.byTime.keys.length with
  | zero => rfl
  | succ fuel =>
    unfold Mempool.expireLoop
    cases hfirst : p.byTime.first with
    | none => rfl
    | some slot =>
      have hlt : ¬ slot.1.1 < Mempool.cutoff now := fun hlt => h ⟨slot, hfirst, hlt⟩
      simp only [hlt, ↓reduceIte]

theorem trimLocked_of_le (h : p.totalBytes ≤ p.maxBytes) : p.trimLocked now = p := by
  unfold Mempool.trimLocked
  cases p.byFeeRate.keys.length with
  | zero => rfl
  | succ fuel =>
    unfold Mempool.trimLoop
    rw [if_neg (UInt64.not_lt.mpr h)]

omit [Doubles] in
theorem llround_zero : llround 0 = 0 := by
  have hfloor : ⌊(0 : ℚ) + 1 / 2⌋ = 0 := by norm_num [Int.floor_eq_iff]
  rw [llround, if_pos (le_refl _), hfloor]
  rfl

/-- Nothing stands in the way of a transaction: no entry is old, the rolling rate is zero, the
limits are not reached. -/
structure Clear (p : Mempool) (now : Int64) (tx : Transaction) (fee : Int64) : Prop where
  young : ¬ Expiring (Mempool.cutoff now) p
  valid : p.validateForPool tx fee = .ok true
  free : p.conflicts tx = false
  size : sizeOf tx ≠ 0
  rolling : p.rollingMinFeeRate = 0
  rate : ¬ feeRate fee (sizeOf tx) < 0
  short : p.chainTooLong tx = false
  bytes : p.totalBytes + sizeOf tx ≤ p.maxBytes

/-- **Then it is entered and nothing else happens.** -/
theorem Clear.addTransaction (h : Clear p now tx fee) :
    p.addTransaction now tx fee = (p.insertEntry now tx fee, .ret true) := by
  have hmin : p.getMinFeeRate now = (p, 0) := by
    unfold getMinFeeRate
    rw [if_pos (.inr h.rolling), h.rolling, llround_zero]
  have hpolicy : p.checkPolicy now tx fee = (p, true) := by
    unfold checkPolicy
    rw [if_neg (by rw [h.free]; simp), if_neg h.size, hmin]
    simp only [h.rate, h.short, ↓reduceIte, Bool.not_false]
  have htrim : (p.insertEntry now tx fee).trimLocked now = p.insertEntry now tx fee :=
    trimLocked_of_le h.bytes
  have hhas : (p.insertEntry now tx fee).hasTransaction tx.getHash = true := by
    unfold hasTransaction
    rw [decide_eq_true_eq, ← AList.lookup_isSome, lookup_insertEntry, if_pos rfl]
    rfl
  unfold Mempool.addTransaction
  rw [expireLocked_of_not_expiring h.young]
  simp only [h.valid, admitChecked, hpolicy, htrim, hhas]

end Add

/-! ## 6. Runs -/

/-- A call of one of the operations that change the pool. -/
inductive PoolOp where
  | add (now : Int64) (tx : Transaction) (fee : Int64)
  | remove (txHash : Bytes32)
  | removeForBlock (blockTxs : List Transaction)
  | clear

namespace PoolOp

variable [Doubles]

def run (p : Mempool) : PoolOp → Mempool
  | add now tx fee => (p.addTransaction now tx fee).1
  | remove txHash => (p.removeTransaction txHash).1
  | removeForBlock blockTxs => p.removeForBlock blockTxs
  | clear => p.clear

def runAll (p : Mempool) (ops : List PoolOp) : Mempool := ops.foldl run p

theorem runAll_nil (p : Mempool) : runAll p [] = p := rfl

theorem runAll_cons (p : Mempool) (op : PoolOp) (ops : List PoolOp) :
    runAll p (op :: ops) = runAll (op.run p) ops := rfl

theorem runAll_append (p : Mempool) (ops ops' : List PoolOp) :
    runAll p (ops ++ ops') = runAll (runAll p ops) ops' := List.foldl_append

theorem run_add (p : Mempool) (now : Int64) (tx : Transaction) (fee : Int64) :
    run p (.add now tx fee) = (p.addTransaction now tx fee).1 := rfl

theorem run_remove (p : Mempool) (txHash : Bytes32) :
    run p (.remove txHash) = (p.removeLocked txHash).1 := rfl

/-- Every call of the sequence meets the condition in the pool it is made on. -/
def Every (P : Mempool → PoolOp → Prop) : Mempool → List PoolOp → Prop
  | _, [] => True
  | p, op :: ops => P p op ∧ Every P (op.run p) ops

/-- No counter of the pool wraps. -/
def Fits (p : Mempool) : PoolOp → Prop
  | add _ tx _ => Room p tx
  | _ => True

/-- The loops of the call come to their end. -/
def LoopsEnd (p : Mempool) : PoolOp → Prop
  | add now tx fee =>
    ¬ Expiring (Mempool.cutoff now) (p.expireLocked now) ∧
      (Enters (p.expireLocked now) now tx fee →
        ¬ Trimming (((p.expireLocked now).entered now tx fee).trimLocked now))
  | _ => True

end PoolOp

/-- **The tables and the byte count of a pool.** -/
structure Consistent (p : Mempool) : Prop where
  byFeeRate : ∀ k h, p.byFeeRate.lookup k = some h ↔
    ∃ e, p.index.lookup h = some e ∧ k = (e.feePerK, e.seq)
  byTime : ∀ k h, p.byTime.lookup k = some h ↔
    ∃ e, p.index.lookup h = some e ∧ k = (e.entryTime, e.seq)
  spends : ∀ o h, p.spends.lookup o = some h ↔
    ∃ e, p.index.lookup h = some e ∧ o ∈ e.tx.inputs.map TxInput.outpoint
  leafSpends : ∀ k h, p.leafSpends.lookup k = some h ↔
    ∃ e, p.index.lookup h = some e ∧ k ∈ (extractLeafKeys e.tx).1
  outpoint_unique : ∀ {h h' e e' o}, p.index.lookup h = some e → p.index.lookup h' = some e' →
    o ∈ e.tx.inputs.map TxInput.outpoint → o ∈ e'.tx.inputs.map TxInput.outpoint → h = h'
  leaf_unique : ∀ {h h' e e' k}, p.index.lookup h = some e → p.index.lookup h' = some e' →
    k ∈ (extractLeafKeys e.tx).1 → k ∈ (extractLeafKeys e'.tx).1 → h = h'
  totalBytes : p.totalBytes.toNat =
    (p.index.entries.map fun slot => slot.2.tx.getSerializedSize true).sum
  totalBytes_le : p.totalBytes ≤ p.maxBytes

theorem Rep.consistent (hp : Rep p) (hle : p.totalBytes ≤ p.maxBytes) :
    Consistent p := by
  have hleaf : ∀ {h e k}, p.index.lookup h = some e → k ∈ (extractLeafKeys e.tx).1 →
      k ∈ e.leafKeys := by
    intro h e k he hk
    rw [hp.leafKeys he]
    exact hk
  exact
    { byFeeRate := fun k h => by
        rw [hp.byFeeRate k h]
        simp only [List.mem_singleton]
        rfl
      byTime := fun k h => by
        rw [hp.byTime k h]
        simp only [List.mem_singleton]
        rfl
      spends := hp.spends
      leafSpends := fun k h => by
        rw [hp.leafSpends k h]
        constructor
        · rintro ⟨e, he, hk⟩
          exact ⟨e, he, hp.leafKeys he ▸ hk⟩
        · rintro ⟨e, he, hk⟩
          exact ⟨e, he, hleaf he hk⟩
      outpoint_unique := fun he he' ho ho' => hp.spends.unique he he' ho ho'
      leaf_unique := fun he he' hk hk' => hp.leafSpends.unique he he' (hleaf he hk) (hleaf he' hk')
      totalBytes := by
        rw [hp.totalBytes, total]
        refine congrArg List.sum (List.map_congr_left ?_)
        intro slot hslot
        exact hp.size (AList.mem_lookup_iff.mpr hslot)
      totalBytes_le := hle }

section Runs

variable [Doubles]

theorem Rep.run (hp : Rep p) (hle : p.totalBytes ≤ p.maxBytes) (op : PoolOp) (hfits : op.Fits p) :
    Rep (op.run p) ∧ (op.run p).totalBytes ≤ (op.run p).maxBytes ∧ op.LoopsEnd p := by
  have hshrunk : ∀ {q : Mempool}, Shrinks p q → q.totalBytes ≤ q.maxBytes := by
    intro q hq
    rw [hq.maxBytes]
    exact UInt64.le_trans hq.totalBytes hle
  cases op with
  | add now tx fee =>
    have hexpired := hp.expireLocked now
    have hend := hp.expireLocked_ended now
    rcases addTransaction_cases p now tx fee with ⟨hnot, hsame, -⟩ | ⟨henters, heq, -⟩
    · have hq := hexpired.trans (hsame.shrinks hexpired.rep)
      exact ⟨hq.rep, hshrunk hq, hend, fun h => absurd h hnot⟩
    · have hin := hexpired.rep.entered (hexpired.room hfits) henters
      have hdone := hin.trimLocked_ended now
      have hrep := (hin.trimLocked now).rep
      simp only [PoolOp.run, heq]
      exact ⟨hrep, hrep.le_maxBytes hdone, hend, fun _ => hdone⟩
  | remove txHash =>
    have hq := hp.removeLocked txHash
    exact ⟨hq.rep, hshrunk hq, trivial⟩
  | removeForBlock blockTxs =>
    have hq := (cuts_removeForBlock p blockTxs).loses.shrinks hp
    exact ⟨hq.rep, hshrunk hq, trivial⟩
  | clear => exact ⟨Rep.clear, UInt64.zero_le, trivial⟩

theorem Rep.runAll : ∀ (ops : List PoolOp) {p : Mempool}, Rep p → p.totalBytes ≤ p.maxBytes →
    PoolOp.Every PoolOp.Fits p ops →
      Rep (PoolOp.runAll p ops) ∧
        (PoolOp.runAll p ops).totalBytes ≤ (PoolOp.runAll p ops).maxBytes ∧
        PoolOp.Every PoolOp.LoopsEnd p ops
  | [], _, hp, hle, _ => ⟨hp, hle, trivial⟩
  | op :: ops, p, hp, hle, hfits => by
    obtain ⟨hrep, hle', hend⟩ := hp.run hle op hfits.1
    obtain ⟨hrep', hle'', hends⟩ := Rep.runAll ops hrep hle' hfits.2
    exact ⟨hrep', hle'', hend, hends⟩

/-- **The tables of the pool agree after every sequence of calls** in which no counter wraps, and
all loops of these calls end. -/
theorem consistent_of_fits (maxBytes : UInt64) (ops : List PoolOp)
    (hfits : PoolOp.Every PoolOp.Fits (new maxBytes) ops) :
    Consistent (PoolOp.runAll (new maxBytes) ops) ∧
      PoolOp.Every PoolOp.LoopsEnd (new maxBytes) ops := by
  obtain ⟨hrep, hle, hends⟩ := (rep_new maxBytes).runAll ops UInt64.zero_le hfits
  exact ⟨hrep.consistent hle, hends⟩

end Runs

/-! ## 7. Plain payments, and the sequence counter

A payment that names no entry as its parent meets no limit of the pool.  Two such payments are
enough to run the sequence counter around: one stays, the other is added and removed again until
its next number is the one of the first. -/

def paymentOutput : TxOutput := TxOutput.ofPubkeyHash 1000000 FixedBytes.zero

/-- A transaction that spends one output into `n` others. -/
def payment (prev : Bytes32) (index : UInt32) (n : Fin 26) : Transaction where
  version := 1
  inputs := [{ prevTxHash := prev, outputIndex := index, pubkey := FixedBytes.ofNat 32 1,
               signature := FixedBytes.zero, kps := FixedBytes.zero, noiseProof := [] }]
  outputs := List.replicate n paymentOutput
  locktime := 0
  inputs_le := by simp [Transaction.MAX_INPUTS]
  outputs_le := by
    have := n.isLt
    simp only [List.length_replicate, Transaction.MAX_OUTPUTS]
    omega

def paymentFee : Int64 := 10000

section Payments

open PoolOp

variable {prev : Bytes32} {index : UInt32} {n : Fin 26}

theorem outpoints_payment : outpoints (payment prev index n) = [{ txHash := prev, index }] := rfl

theorem extractLeafKeys_payment : extractLeafKeys (payment prev index n) = ([], true) := rfl

theorem getSerializedSize_payment :
    (payment prev index n).getSerializedSize true = 188 + 46 * n := by
  have hout : paymentOutput.getSerializedSize = 46 := rfl
  simp only [Transaction.getSerializedSize, payment, List.map_cons, List.map_nil, List.sum_cons,
    List.sum_nil, TxInput.getSerializedSize, List.map_replicate, List.sum_replicate_nat, hout,
    ↓reduceIte, List.length_nil]
  omega

theorem toNat_sizeOf_payment : (sizeOf (payment prev index n)).toNat = 188 + 46 * n := by
  rw [toNat_sizeOf, getSerializedSize_payment]
  rw [getSerializedSize_payment, Transaction.MAX_TX_SIZE]
  omega

theorem getValueOut_payment :
    (payment prev index n).getValueOut = .ok (1000000 * Int64.ofNat n) := by
  have hall : ∀ n : Fin 26, Transaction.valueOutFrom 0 (List.replicate n paymentOutput) =
      .ok (1000000 * Int64.ofNat n) := by decide
  exact hall n

theorem isCoinbase_payment (hindex : index ≠ 0xFFFFFFFF) :
    (payment prev index n).isCoinbase = false := by
  change (prev.isZero && index == 0xFFFFFFFF) = false
  simp [hindex]

theorem isValid_payment (hn : n ≠ 0) : (payment prev index n).isValid = .ok true := by
  have hsize : ¬ (payment prev index n).getSerializedSize true > Transaction.MAX_TX_SIZE := by
    rw [getSerializedSize_payment, Transaction.MAX_TX_SIZE]
    omega
  have hsome : (payment prev index n).outputs.isEmpty = false := by
    have hpos : (n : Nat) ≠ 0 := fun h => hn (Fin.ext h)
    simp [payment, hpos]
  have hin : (payment prev index n).inputs.all TxInput.isValid = true := by
    have hkey : (FixedBytes.ofNat 32 1).isZero = false := by decide
    simp [payment, TxInput.isValid, hkey]
  have hout : ((payment prev index n).outputs.all fun output =>
      output.isValid && !(output.isDust && !(payment prev index n).isCoinbase)) = true := by
    have hone : paymentOutput.isValid = true ∧ paymentOutput.isDust = false := by decide
    simp [payment, hone]
  have hvalue : ∀ n : Fin 26, (0 : Int64) ≤ 1000000 * Int64.ofNat n := by decide
  unfold Transaction.isValid
  rw [hsome, hin, hout, getValueOut_payment]
  simp only [hsize, ↓reduceIte, Bool.or_false, Bool.not_true, Bool.false_eq_true, Except.map, hvalue n,
    decide_true]
  rfl

theorem validateForPool_payment (hn : n ≠ 0) (hindex : index ≠ 0xFFFFFFFF)
    (hnew : (payment prev index n).getHash ∉ p.index) :
    p.validateForPool (payment prev index n) paymentFee = .ok true := by
  have hvalue : ∀ n : Fin 26, n ≠ 0 → (!decide ((1000000 * Int64.ofNat n) < 0) &&
      !decide ((1000000 * Int64.ofNat n) < DUST_THRESHOLD)) = true := by decide
  have hfee : ¬ paymentFee < 0 := by decide
  unfold validateForPool
  simp only [isValid_payment hn, isCoinbase_payment hindex, hfee, hasTransaction, hnew,
    getValueOut_payment, Except.map, ↓reduceIte, decide_false, Bool.false_eq_true]
  exact congrArg Except.ok (hvalue n hn)

theorem chainTooLong_of_root {tx : Transaction}
    (hroot : ∀ input ∈ tx.inputs, input.prevTxHash ∉ p.index) : p.chainTooLong tx = false := by
  have hparents : p.parentsOf tx = [] := by
    unfold parentsOf
    rw [List.filter_eq_nil_iff]
    intro parent hparent
    obtain ⟨input, hinput, rfl⟩ := List.mem_map.mp hparent
    simpa using hroot input hinput
  have hexplore : ∀ fuel, Worklist.explore p.parents fuel 0 [] = [] := by
    intro fuel
    cases fuel <;> rfl
  have hcount : p.countAncestors tx = 1 := by
    rw [countAncestors, hparents, List.foldl_nil, hexplore]
    rfl
  unfold chainTooLong
  rw [hcount]
  simp only [List.any_map, List.any_eq_false, Bool.or_eq_false_iff, Function.comp_apply,
    Bool.and_eq_true, decide_eq_true_eq, not_and]
  refine ⟨by decide, ?_⟩
  intro input hinput hmem
  exact absurd hmem (hroot input hinput)

theorem chainTooLong_payment (hroot : prev ∉ p.index) :
    p.chainTooLong (payment prev index n) = false := by
  refine chainTooLong_of_root ?_
  intro input hinput
  rw [List.mem_singleton.mp hinput]
  exact hroot

theorem clear_payment {now : Int64} (hn : n ≠ 0) (hindex : index ≠ 0xFFFFFFFF)
    (hyoung : ¬ Expiring (Mempool.cutoff now) p) (hrolling : p.rollingMinFeeRate = 0)
    (hnew : (payment prev index n).getHash ∉ p.index) (hfree : { txHash := prev, index } ∉ p.spends)
    (hshort : p.chainTooLong (payment prev index n) = false)
    (hbytes : p.totalBytes + sizeOf (payment prev index n) ≤ p.maxBytes) :
    Clear p now (payment prev index n) paymentFee where
  young := hyoung
  valid := validateForPool_payment hn hindex hnew
  free := by simp [conflicts, outpoints_payment, extractLeafKeys_payment, hfree]
  size := by
    intro hzero
    have hsize := @toNat_sizeOf_payment prev index n
    rw [hzero] at hsize
    change 0 = _ at hsize
    omega
  rolling := hrolling
  rate := by
    have hrate : ∀ n : Fin 26, ¬ feeRate paymentFee (UInt64.ofNat (188 + 46 * n)) < 0 := by decide
    rw [sizeOf, getSerializedSize_payment]
    exact hrate n
  short := hshort
  bytes := hbytes

/-- Exact arithmetic in place of `double`. -/
@[reducible]
def plainDoubles : Doubles where
  ofInt64 := fun n => n.toInt
  decay := fun rate _ _ => rate

/-- A pool that holds the given payments. -/
structure Filled (p : Mempool) (txs : List Transaction) : Prop where
  rep : Rep p
  rolling : p.rollingMinFeeRate = 0
  times : ∀ {h e}, p.index.lookup h = some e → (0 : Int64) ≤ e.entryTime
  holds : ∀ tx ∈ txs, ∃ e, p.index.lookup tx.getHash = some e ∧ e.tx = tx
  only : ∀ {h e}, p.index.lookup h = some e → e.tx ∈ txs
  maxBytes : p.maxBytes = DEFAULT_MAX_BYTES
  bytes : p.totalBytes.toNat ≤ txs.length * 2000
  seq : p.sequenceCounter.toNat = txs.length

theorem filled_new : Filled (new DEFAULT_MAX_BYTES) [] where
  rep := rep_new _
  rolling := rfl
  times := fun he => absurd he (by simp [new])
  holds := fun tx htx => absurd htx List.not_mem_nil
  only := fun he => absurd he (by simp [new])
  maxBytes := rfl
  bytes := by decide
  seq := rfl

section Filled

variable {p : Mempool} {txs : List Transaction}

variable {now : Int64}

theorem Filled.young (h : Filled p txs) (hnow : Mempool.cutoff now ≤ 0) :
    ¬ Expiring (Mempool.cutoff now) p := by
  rintro ⟨slot, hfirst, hlt⟩
  obtain ⟨e, he, hkey⟩ := h.rep.first_expired hfirst
  have htime : (0 : Int64) ≤ slot.1.1 := by
    rw [← hkey]
    exact h.times he
  exact Int64.not_lt.mpr (Int64.le_trans hnow htime) hlt

theorem Filled.not_mem (h : Filled p txs) {hash : Bytes32} (hnew : hash ∉ txs.map Transaction.getHash) :
    hash ∉ p.index := by
  intro hmem
  obtain ⟨e, he⟩ := Option.isSome_iff_exists.mp (AList.lookup_isSome.mpr hmem)
  exact hnew (List.mem_map.mpr ⟨e.tx, h.only he, h.rep.hash he⟩)

theorem Filled.bytes_fit (h : Filled p txs) (hlen : txs.length < 1000) :
    p.totalBytes + sizeOf (payment prev index n) ≤ p.maxBytes ∧ Room p (payment prev index n) := by
  have hsize := @toNat_sizeOf_payment prev index n
  have hbytes := h.bytes
  have hseq := h.seq
  have hmax : DEFAULT_MAX_BYTES.toNat = 300000000 := by decide
  constructor
  · rw [UInt64.le_iff_toNat_le, h.maxBytes, hmax, UInt64.toNat_add, hsize, Nat.mod_eq_of_lt (by omega)]
    omega
  · exact ⟨by omega, by rw [hsize]; omega⟩

theorem Filled.clear (h : Filled p txs) (hnow : Mempool.cutoff now ≤ 0) (hn : n ≠ 0)
    (hindex : index ≠ 0xFFFFFFFF) (hnew : (payment prev index n).getHash ∉ txs.map Transaction.getHash)
    (hfree : { txHash := prev, index } ∉ txs.flatMap outpoints)
    (hshort : p.chainTooLong (payment prev index n) = false) (hlen : txs.length < 1000) :
    Clear p now (payment prev index n) paymentFee := by
  refine clear_payment hn hindex (h.young hnow) h.rolling (h.not_mem hnew) ?_ hshort
    (h.bytes_fit hlen).1
  intro hmem
  obtain ⟨hash, hfound⟩ := Option.isSome_iff_exists.mp (AList.lookup_isSome.mpr hmem)
  obtain ⟨e, he, ho⟩ := (h.rep.spends _ hash).mp hfound
  exact hfree (List.mem_flatMap.mpr ⟨e.tx, h.only he, ho⟩)

theorem Filled.insertEntry (h : Filled p txs) (hnow : 0 ≤ now)
    (hclear : Clear p now (payment prev index n) paymentFee) (hlen : txs.length < 1000) :
    Filled (p.insertEntry now (payment prev index n) paymentFee) (payment prev index n :: txs) := by
  have hnew := (validateForPool_ok hclear.valid).2.2
  have hroom := (@Filled.bytes_fit prev index n p txs h hlen).2
  have hsize := @toNat_sizeOf_payment prev index n
  exact
    { rep := h.rep.insertEntry hroom hnew hclear.free (by rw [hsize, getSerializedSize_payment])
      rolling := h.rolling
      times := fun he => by
        rcases of_lookup_insertEntry he with ⟨-, rfl⟩ | he
        · exact hnow
        · exact h.times he
      holds := by
        intro tx htx
        rw [lookup_insertEntry]
        rcases List.mem_cons.mp htx with rfl | htx
        · exact ⟨_, if_pos rfl, rfl⟩
        · obtain ⟨e, he, heq⟩ := h.holds tx htx
          have hne : tx.getHash ≠ (payment prev index n).getHash := by
            intro hself
            exact hnew (hself ▸ AList.lookup_isSome.mp (by rw [he]; rfl))
          exact ⟨e, by rw [if_neg hne]; exact he, heq⟩
      only := fun he => by
        rcases of_lookup_insertEntry he with ⟨-, rfl⟩ | he
        · exact List.mem_cons_self ..
        · exact List.mem_cons_of_mem _ (h.only he)
      maxBytes := h.maxBytes
      bytes := by
        have hbytes := h.bytes
        change (p.totalBytes + sizeOf (payment prev index n)).toNat ≤ _
        rw [UInt64.toNat_add, hsize, List.length_cons, Nat.mod_eq_of_lt (by omega)]
        omega
      seq := by
        have hseq := h.seq
        have hone : (1 : UInt64).toNat = 1 := rfl
        change (p.sequenceCounter + 1).toNat = _
        rw [UInt64.toNat_add, hone, List.length_cons, Nat.mod_eq_of_lt (by omega), hseq] }

/-- **A payment that names none of the others**, at time 0. -/
theorem Filled.add [Doubles] (h : Filled p txs) (hn : n ≠ 0) (hindex : index ≠ 0xFFFFFFFF)
    (hnew : (payment prev index n).getHash ∉ txs.map Transaction.getHash)
    (hfree : { txHash := prev, index } ∉ txs.flatMap outpoints)
    (hroot : prev ∉ txs.map Transaction.getHash) (hlen : txs.length < 1000) :
    Filled (p.addTransaction 0 (payment prev index n) paymentFee).1 (payment prev index n :: txs) := by
  have hclear : Clear p 0 (payment prev index n) paymentFee :=
    h.clear (by decide) hn hindex hnew hfree (chainTooLong_payment (h.not_mem hroot)) hlen
  rw [hclear.addTransaction]
  exact h.insertEntry (by decide) hclear hlen

end Filled

def source : Transaction := payment (FixedBytes.ofNat 32 7) 0 25

def sourceHash : Bytes32 :=
  FixedBytes.ofNat 32 0xd14229d2daa8741b3f02ed4090d51e17aa2af53f4a150de4264f42ca64ec8661

/-- The payment that spends output `i` of `source`. -/
def branch (i : Nat) : Transaction := payment sourceHash (UInt32.ofNat i) 1

theorem hashes_source : source.getHash = sourceHash ∧
    ((FixedBytes.ofNat 32 7 :: sourceHash :: (List.range 25).map fun i => (branch i).getHash).map
        fun hash => hash.data.take 2) =
      [[0, 0], [209, 66], [130, 154], [35, 77], [116, 189], [198, 51], [46, 22], [195, 59], [28, 73],
        [210, 164], [113, 205], [158, 194], [255, 141], [203, 172], [52, 150], [170, 120], [62, 222],
        [58, 137], [65, 216], [26, 37], [7, 6], [56, 238], [86, 134], [255, 160], [20, 228], [40, 13],
        [72, 241]] := by
  simp only [Transaction.getHash, sha256_eq]
  decide +kernel

theorem nodup_hashes :
    (FixedBytes.ofNat 32 7 :: sourceHash :: (List.range 25).map fun i => (branch i).getHash).Nodup := by
  refine List.Nodup.of_map (fun hash : Bytes32 => hash.data.take 2) ?_
  rw [hashes_source.2]
  decide

theorem getHash_branch_ne {i j : Nat} (hi : i < 25) (hj : j < 25) (hij : i ≠ j) :
    (branch i).getHash ≠ (branch j).getHash := by
  have hnodup := (List.nodup_cons.mp (List.nodup_cons.mp nodup_hashes).2).2
  intro heq
  exact hij (List.inj_on_of_nodup_map hnodup (List.mem_range.mpr hi) (List.mem_range.mpr hj) heq)

theorem getHash_branch_ne_source {i : Nat} (hi : i < 25) :
    (branch i).getHash ≠ sourceHash ∧ (branch i).getHash ≠ FixedBytes.ofNat 32 7 := by
  obtain ⟨hroot, hrest⟩ := List.nodup_cons.mp nodup_hashes
  have hmem : (branch i).getHash ∈ (List.range 25).map fun i => (branch i).getHash :=
    List.mem_map.mpr ⟨i, List.mem_range.mpr hi, rfl⟩
  constructor
  · intro heq
    exact (List.nodup_cons.mp hrest).1 (heq ▸ hmem)
  · intro heq
    exact hroot (List.mem_cons_of_mem _ (heq ▸ hmem))

/-- A run of two payments, the first of which is removed again. -/
theorem consistent_two_payments :
    let ops : List PoolOp :=
      [.add 0 (branch 0) paymentFee, .add 0 (branch 1) paymentFee, .remove (branch 0).getHash, .clear]
    @PoolOp.Every plainDoubles PoolOp.Fits (new DEFAULT_MAX_BYTES) ops ∧
      Consistent (@PoolOp.runAll plainDoubles (new DEFAULT_MAX_BYTES) ops) ∧
      @PoolOp.Every plainDoubles (@PoolOp.LoopsEnd plainDoubles) (new DEFAULT_MAX_BYTES) ops := by
  let _ := plainDoubles
  have hone : Filled ((new DEFAULT_MAX_BYTES).addTransaction 0 (branch 0) paymentFee).1 [branch 0] :=
    filled_new.add (by decide) (by decide) List.not_mem_nil List.not_mem_nil List.not_mem_nil
      (by decide)
  have hfits : PoolOp.Every PoolOp.Fits (new DEFAULT_MAX_BYTES)
      [.add 0 (branch 0) paymentFee, .add 0 (branch 1) paymentFee, .remove (branch 0).getHash,
        .clear] :=
    ⟨(filled_new.bytes_fit (by decide)).2, (hone.bytes_fit (by decide)).2, trivial, trivial, trivial⟩
  exact ⟨hfits, consistent_of_fits DEFAULT_MAX_BYTES _ hfits⟩

/-- A pool that holds the first payment, with another state of the counter. -/
def counting (c : UInt64) : Mempool :=
  { (new DEFAULT_MAX_BYTES).insertEntry 0 (branch 0) paymentFee with sequenceCounter := c }

theorem mem_insert_empty {K V : Type} [DecidableEq K] {k k' : K} {v : V} :
    k ∈ (∅ : AList fun _ : K => V).insert k' v ↔ k = k' := by
  rw [AList.mem_insert]
  simp

theorem mem_index_counting {c : UInt64} {h : Bytes32} :
    h ∈ (counting c).index ↔ h = (branch 0).getHash :=
  mem_insert_empty

theorem clear_counting (c : UInt64) : Clear (counting c) 0 (branch 1) paymentFee := by
  refine clear_payment (by decide) (by decide) ?_ rfl ?_ ?_ ?_ ?_
  · rintro ⟨slot, hfirst, hlt⟩
    cases hfirst
    exact absurd hlt (by decide)
  · rw [mem_index_counting]
    exact getHash_branch_ne (by decide) (by decide) (by decide)
  · change _ ∉ (∅ : AList fun _ : OutPoint => Bytes32).insert _ _
    rw [mem_insert_empty]
    intro heq
    exact absurd (congrArg OutPoint.index heq) (by decide)
  · refine chainTooLong_payment ?_
    rw [mem_index_counting]
    exact (getHash_branch_ne_source (by decide)).1.symm
  · have hsize : ∀ i, (sizeOf (branch i)).toNat = 234 := fun _ => toNat_sizeOf_payment
    change ((0 + sizeOf (branch 0)) + sizeOf (branch 1)).toNat ≤ DEFAULT_MAX_BYTES.toNat
    decide

/-- **A payment that is entered and removed again moves the counter**, and nothing else. -/
theorem removeLocked_insertEntry {now : Int64} (hnew : (payment prev index n).getHash ∉ p.index)
    (hfree : { txHash := prev, index } ∉ p.spends)
    (hfee : ∀ rate, (rate, p.sequenceCounter + 1) ∉ p.byFeeRate)
    (htime : (now, p.sequenceCounter + 1) ∉ p.byTime) :
    ((p.insertEntry now (payment prev index n) paymentFee).removeLocked
        (payment prev index n).getHash).1 = { p with sequenceCounter := p.sequenceCounter + 1 } := by
  unfold Mempool.removeLocked
  rw [lookup_insertEntry, if_pos rfl]
  have hbytes : p.totalBytes + sizeOf (payment prev index n) - sizeOf (payment prev index n) =
      p.totalBytes := UInt64.add_sub_cancel _ _
  simp only [Mempool.removeEntry, Mempool.insertEntry, entryOf, Entry.feeKey, Entry.timeKey,
    outpoints_payment, extractLeafKeys_payment, List.foldl_cons, List.foldl_nil, erase_insert hnew,
    erase_insert hfree, erase_insert (hfee _), erase_insert htime, hbytes]

theorem round_counting [Doubles] {c : UInt64} (hc : c ≠ 0) :
    PoolOp.runAll (counting c) [.add 0 (branch 1) paymentFee, .remove (branch 1).getHash] =
      counting (c + 1) := by
  have hclear := clear_counting c
  have hkey : ∀ (v : Int64) (h : Bytes32) (k : Int64),
      ((k, c + 1) : RankKey) ∉ (∅ : RankMap).insert (v, 1) h := by
    intro v h k
    rw [mem_insert_empty]
    intro heq
    have hone : c + 1 = 1 := congrArg Prod.snd heq
    exact hc (by rw [← UInt64.add_sub_cancel c 1, hone, UInt64.sub_self])
  have hfree : { txHash := sourceHash, index := UInt32.ofNat 1 } ∉ (counting c).spends :=
    (not_conflicts hclear.free).1 _ (List.mem_singleton_self _)
  have hnew := (validateForPool_ok hclear.valid).2.2
  rw [runAll_cons, runAll_cons, runAll_nil, run_add, run_remove, hclear.addTransaction]
  exact removeLocked_insertEntry hnew hfree (hkey _ _) (hkey _ _ _)

def rounds (n : Nat) : List PoolOp :=
  (List.replicate n [.add 0 (branch 1) paymentFee, .remove (branch 1).getHash]).flatten

theorem runAll_rounds [Doubles] : ∀ n : Nat, n < 2 ^ 64 →
    PoolOp.runAll (counting 1) (rounds n) = counting (UInt64.ofNat (n + 1))
  | 0, _ => rfl
  | n + 1, hn => by
    have hne : UInt64.ofNat (n + 1) ≠ 0 := by
      intro hzero
      have hval := congrArg UInt64.toNat hzero
      rw [UInt64.toNat_ofNat', Nat.mod_eq_of_lt hn] at hval
      exact absurd hval (Nat.succ_ne_zero n)
    rw [rounds, List.replicate_succ', List.flatten_concat, ← rounds, runAll_append,
      runAll_rounds n (by omega), round_counting hne]
    rw [UInt64.ofNat_add (n + 1) 1]
    rfl

/-- **The counter comes around.**  After `2 ^ 64` rounds the number of the first payment is given
again, to a payment of the same fee rate: one key of `mByFeeRate` is left for two entries. -/
theorem sequence_comes_around : ∃ ops : List PoolOp,
    ¬ Consistent (@PoolOp.runAll plainDoubles (new DEFAULT_MAX_BYTES) ops) := by
  let _ := plainDoubles
  obtain ⟨n, hn⟩ : ∃ n : Nat, n + 1 = 2 ^ 64 := ⟨2 ^ 64 - 1, rfl⟩
  refine ⟨[.add 0 (branch 0) paymentFee] ++ (rounds n ++ [.add 0 (branch 1) paymentFee]), ?_⟩
  have hfirst : PoolOp.runAll (new DEFAULT_MAX_BYTES) [.add 0 (branch 0) paymentFee] = counting 1 := by
    have hclear : Clear (new DEFAULT_MAX_BYTES) 0 (branch 0) paymentFee :=
      clear_payment (by decide) (by decide) (filled_new.young (by decide)) rfl (by simp [new]) (by simp [new])
        (chainTooLong_payment (by simp [new])) (filled_new.bytes_fit (by decide)).1
    rw [runAll_cons, runAll_nil, run_add, hclear.addTransaction]
    rfl
  have hlast : PoolOp.runAll (counting 0) [.add 0 (branch 1) paymentFee] =
      (counting 0).insertEntry 0 (branch 1) paymentFee := by
    rw [runAll_cons, runAll_nil, run_add, (clear_counting 0).addTransaction]
  rw [runAll_append, hfirst, runAll_append, runAll_rounds n (by omega), hn]
  change ¬ Consistent (PoolOp.runAll (counting 0) [.add 0 (branch 1) paymentFee])
  rw [hlast]
  intro hcons
  have hne := getHash_branch_ne (i := 0) (j := 1) (by decide) (by decide) (by decide)
  have hold : ((counting 0).insertEntry 0 (branch 1) paymentFee).index.lookup (branch 0).getHash =
      some ((new DEFAULT_MAX_BYTES).entryOf 0 (branch 0) paymentFee) := by
    rw [lookup_insertEntry, if_neg hne]
    exact AList.lookup_insert _
  have hkey := (hcons.byFeeRate _ _).mpr ⟨_, hold, rfl⟩
  have hnew : ((counting 0).insertEntry 0 (branch 1) paymentFee).byFeeRate.lookup
      (feeRate paymentFee (sizeOf (branch 0)), 1) = some (branch 1).getHash := by
    exact AList.lookup_insert _
  exact hne (Option.some.inj (hkey.symm.trans hnew))

end Payments

end Mempool

end Moneu
