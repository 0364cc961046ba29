/-
# What holds of a pool whatever its counters

After 2^64 admissions the keys of two entries can be the same, and `mByFeeRate` and `mByTime` then forget one
of the entries.  The part of the agreement of the tables that does NOT rest on the two counters of the pool
holds after every sequence of calls (`Sound.runAll`): the tables name no entry by a key that is not its own,
and the entries share neither outpoints nor leaves.
-/
import Moneu.Consensus.PoolIndex

namespace Moneu

open Index

namespace Mempool

/-- **The tables name entries by their own keys**, and entries share neither outpoints nor leaves. -/
structure Sound (p : Mempool) : Prop where
  hash : ∀ {h e}, p.index.lookup h = some e → e.tx.getHash = h
  leafKeys : ∀ {h e}, p.index.lookup h = some e → e.leafKeys = (extractLeafKeys e.tx).1
  ranked : ∀ {k h}, p.byFeeRate.lookup k = some h → ∃ e, p.index.lookup h = some e ∧ e.feeKey = k
  spends : Mirrors (fun e => outpoints e.tx) p.index p.spends
  leafSpends : Mirrors Entry.leafKeys p.index p.leafSpends

theorem sound_new (maxBytes : UInt64) : Sound (new maxBytes) where
  hash := fun he => by cases he
  leafKeys := fun he => by cases he
  ranked := fun hk => by cases hk
  spends := Mirrors.empty
  leafSpends := Mirrors.empty

section Sound

variable {p q : Mempool}

theorem Rep.sound (hp : Rep p) : Sound p where
  hash := hp.hash
  leafKeys := hp.leafKeys
  ranked := fun {k h} hk => by
    obtain ⟨e, he, hkey⟩ := (hp.byFeeRate k h).mp hk
    exact ⟨e, he, (List.mem_singleton.mp hkey).symm⟩
  spends := hp.spends
  leafSpends := hp.leafSpends

theorem Sound.clear : Sound p.clear where
  hash := fun he => by cases he
  leafKeys := fun he => by cases he
  ranked := fun hk => by cases hk
  spends := Mirrors.empty
  leafSpends := Mirrors.empty

theorem SameTables.sound (h : SameTables p q) (hp : Sound p) : Sound q where
  hash := fun he => hp.hash (h.index ▸ he)
  leafKeys := fun he => hp.leafKeys (h.index ▸ he)
  ranked := fun hk => by
    rw [h.byFeeRate] at hk
    rw [h.index]
    exact hp.ranked hk
  spends := by rw [h.index, h.spends]; exact hp.spends
  leafSpends := by rw [h.index, h.leafSpends]; exact hp.leafSpends

theorem Sound.removeEntry (hp : Sound p) {h : Bytes32} {e : Entry} (he : p.index.lookup h = some e) :
    Sound (p.removeEntry h e) where
  hash := fun hq => hp.hash (Rep.index_removeEntry hq)
  leafKeys := fun hq => hp.leafKeys (Rep.index_removeEntry hq)
  ranked := fun {k h'} hk => by
    change (p.byFeeRate.erase e.feeKey).lookup k = some h' at hk
    have hne : k ≠ e.feeKey := by
      rintro rfl
      rw [AList.lookup_erase] at hk
      cases hk
    rw [AList.lookup_erase_ne hne] at hk
    obtain ⟨e', he', hkey⟩ := hp.ranked hk
    have hother : h' ≠ h := by
      rintro rfl
      rw [he] at he'
      cases he'
      exact hne hkey.symm
    exact ⟨e', by rw [lookup_removeEntry, if_neg hother]; exact he', hkey⟩
  spends := hp.spends.erase he
  leafSpends := hp.leafSpends.erase he

theorem Loses.sound (h : Loses p q) (hp : Sound p) : Sound q := by
  induction h with
  | refl => exact hp
  | @entry q hash _ ih =>
    unfold removeLocked
    cases he : q.index.lookup hash with
    | none => exact ih
    | some e => exact ih.removeEntry he
  | aside _ hsame ih => exact hsame.sound ih

/-- **A new transaction keeps it**, whatever number it gets. -/
theorem Sound.insertEntry (hp : Sound p) {now fee : Int64} {tx : Transaction} (hnew : tx.getHash ∉ p.index)
    (hfree : p.conflicts tx = false) : Sound (p.insertEntry now tx fee) := by
  obtain ⟨hspends, hleaves, -⟩ := not_conflicts hfree
  exact
    { hash := fun he => by
        rcases of_lookup_insertEntry he with ⟨rfl, rfl⟩ | he
        · rfl
        · exact hp.hash he
      leafKeys := fun he => by
        rcases of_lookup_insertEntry he with ⟨rfl, rfl⟩ | he
        · rfl
        · exact hp.leafKeys he
      ranked := fun {k h} hk => by
        change (p.byFeeRate.insert (p.entryOf now tx fee).feeKey tx.getHash).lookup k = some h at hk
        by_cases hkey : k = (p.entryOf now tx fee).feeKey
        · rw [hkey, AList.lookup_insert] at hk
          cases hk
          exact ⟨_, by rw [lookup_insertEntry, if_pos rfl], hkey.symm⟩
        · rw [AList.lookup_insert_ne hkey] at hk
          obtain ⟨e, he, hek⟩ := hp.ranked hk
          have hother : h ≠ tx.getHash := by
            rintro rfl
            exact hnew (AList.lookup_isSome.mp (by rw [he]; rfl))
          exact ⟨e, by rw [lookup_insertEntry, if_neg hother]; exact he, hek⟩
      spends := hp.spends.insert hnew hspends
      leafSpends := hp.leafSpends.insert hnew hleaves }

variable [Doubles]

theorem Sound.addTransaction (hp : Sound p) (now : Int64) (tx : Transaction) (fee : Int64) :
    Sound (p.addTransaction now tx fee).1 := by
  have hexpired := (loses_expireLocked p now).sound hp
  rcases addTransaction_cases p now tx fee with ⟨-, hsame, -⟩ | ⟨henters, heq, -⟩
  · exact hsame.sound hexpired
  · obtain ⟨hsame, hpolicy⟩ := checkPolicy_spec (p.expireLocked now) now tx fee
    have hnew := (validateForPool_ok henters.valid).2.2
    have hfree := (hpolicy.mp henters.policy).1
    rw [heq]
    refine (cuts_trimLocked _ now).loses.sound ((hsame.sound hexpired).insertEntry ?_ ?_)
    · rw [hsame.index]
      exact hnew
    · rw [← hfree, conflicts, conflicts, hsame.spends, hsame.leafSpends]

theorem Sound.run (hp : Sound p) (op : PoolOp) : Sound (op.run p) := by
  cases op with
  | add now tx fee => exact hp.addTransaction now tx fee
  | remove txHash => exact (Loses.refl.entry txHash).sound hp
  | removeForBlock blockTxs => exact (cuts_removeForBlock p blockTxs).loses.sound hp
  | clear => exact Sound.clear

theorem Sound.runAll : ∀ (ops : List PoolOp) {p : Mempool}, Sound p → Sound (PoolOp.runAll p ops)
  | [], _, hp => hp
  | op :: ops, _, hp => Sound.runAll ops (hp.run op)

end Sound

end Mempool

end Moneu
