/-
# Removal and the children of what is removed

`RemoveRecursiveLocked` takes out an entry with everything that descends from it, and `TrimLocked`
and `RemoveForBlock` use nothing else.  `RemoveTransaction` and `ExpireLocked` call `RemoveLocked`,
which takes out one entry and leaves its children.

So a call leaves no orphans if `RemoveTransaction` is given an entry without children and if the
entries that expire take their children along (`noOrphans_of_meets`).  A parent that expires before
its child leaves an orphan, and so does a parent that is removed by name (`orphans`).
-/
import Moneu.Consensus.PoolLimits
import Moneu.Consensus.PoolSound

namespace Moneu

open Worklist

namespace Mempool

/-! ## 1. Children and descendants -/

/-- `child` spends an output of `parent`. -/
def SpendsOutputOf (child parent : Transaction) : Prop :=
  ∃ input ∈ child.inputs,
    input.prevTxHash = parent.getHash ∧ input.outputIndex.toNat < parent.outputs.length

/-- A transaction spends an output of `tx`, directly or through a chain of transactions that are
or were in the pool. -/
inductive Descends (pooled : Transaction → Prop) (tx : Transaction) : Transaction → Prop
  | child {c : Transaction} : SpendsOutputOf c tx → Descends pooled tx c
  | through {c d : Transaction} :
      Descends pooled tx c → pooled c → SpendsOutputOf d c → Descends pooled tx d

/-- An entry of the pool before or after a call. -/
def Pooled (p q : Mempool) (tx : Transaction) : Prop :=
  ∃ h e, (p.index.lookup h = some e ∨ q.index.lookup h = some e) ∧ e.tx = tx

/-- **A call leaves no orphans**: nothing that is left descends from an entry that was removed and
not confirmed. -/
def NoOrphans (p q : Mempool) (confirmed : List Bytes32) : Prop :=
  ∀ h e, p.index.lookup h = some e → h ∉ q.index → h ∉ confirmed →
    ∀ t e', q.index.lookup t = some e' → ¬ Descends (Pooled p q) e.tx e'.tx

/-- The entries of `q` spend nothing of an entry of `p` that `q` does not have. -/
def Clean (p q : Mempool) : Prop :=
  ∀ h e, p.index.lookup h = some e → q.index.lookup h ≠ some e →
    ∀ t e', q.index.lookup t = some e' → ¬ SpendsOutputOf e'.tx e.tx

section Clean

variable {p q r : Mempool}

theorem Clean.refl (p : Mempool) : Clean p p := fun _ _ he hne => absurd he hne

theorem Clean.noOrphans (h : Clean p q) (confirmed : List Bytes32) : NoOrphans p q confirmed := by
  intro hash e he hgone _ t e' he' hdesc
  have hnone : q.index.lookup hash ≠ some e := by
    intro hsome
    exact hgone (AList.lookup_isSome.mp (by rw [hsome]; rfl))
  have hout : ∀ d, Descends (Pooled p q) e.tx d → ∀ t e', q.index.lookup t = some e' → e'.tx ≠ d := by
    intro d hd
    induction hd with
    | child hc =>
      rintro t e' he' rfl
      exact h hash e he hnone t e' he' hc
    | @through c d _ hc hspends ih =>
      rintro t e' he' rfl
      obtain ⟨hc', ec, hfound, rfl⟩ := hc
      have habsent : q.index.lookup hc' ≠ some ec := fun hq => ih hc' ec hq rfl
      exact h hc' ec (hfound.resolve_right habsent) habsent t e' he' hspends
  exact hout _ hdesc t e' he' rfl

/-- The next part of a call takes more entries out; only those need be looked at. -/
theorem Clean.step (h : Clean p q) (hr : Within r q)
    (hstep : ∀ hash e, p.index.lookup hash = some e → q.index.lookup hash = some e →
      r.index.lookup hash ≠ some e →
        ∀ t e', r.index.lookup t = some e' → ¬ SpendsOutputOf e'.tx e.tx) : Clean p r := by
  intro hash e he hgone t e' he'
  by_cases hq : q.index.lookup hash = some e
  · exact hstep hash e he hq hgone t e' he'
  · exact h hash e he hq t e' (hr t e' he')

theorem Clean.trans (hpq : Clean p q) (hr : Within r q) (hqr : Clean q r) : Clean p r :=
  hpq.step hr fun hash e _ hq hgone => hqr hash e hq hgone

/-- A transaction is entered that spends nothing of what was taken out. -/
theorem Clean.insertEntry {tx : Transaction} {now fee : Int64} (h : Clean p q)
    (hnew : tx.getHash ∉ q.index)
    (htx : ∀ hash e, p.index.lookup hash = some e → q.index.lookup hash ≠ some e →
      ¬ SpendsOutputOf tx e.tx) : Clean p (q.insertEntry now tx fee) := by
  intro hash e he hgone t e' he'
  have hq : q.index.lookup hash ≠ some e := by
    by_cases hself : hash = tx.getHash
    · rw [hself, AList.lookup_eq_none.mpr hnew]
      exact nofun
    · rw [lookup_insertEntry, if_neg hself] at hgone
      exact hgone
  rw [lookup_insertEntry] at he'
  split at he'
  · cases he'
    exact htx hash e he hq
  · exact h hash e he hq t e' he'

end Clean

/-! ## 2. Recursive removal -/

section Recursive

variable {p q r : Mempool}

/-- The entry `t` spends an output of the entry `h`. -/
def Child (p : Mempool) (h t : Bytes32) : Prop :=
  ∃ e e', p.index.lookup h = some e ∧ p.index.lookup t = some e' ∧ SpendsOutputOf e'.tx e.tx

theorem Sound.mem_children (hp : Sound p) {h t : Bytes32} : t ∈ p.children h ↔ Child p h t := by
  constructor
  · intro ht
    unfold children at ht
    split at ht
    · cases ht
    · next e he =>
        obtain ⟨i, hi, hfound⟩ := List.mem_filterMap.mp ht
        obtain ⟨e', he', ho⟩ := (hp.spends _ t).mp hfound
        obtain ⟨input, hinput, heq⟩ := List.mem_map.mp ho
        refine ⟨e, e', he, he', input, hinput, congrArg OutPoint.txHash heq, ?_⟩
        have hindex : input.outputIndex = UInt32.ofNat i := congrArg OutPoint.index heq
        have hlt := List.mem_range.mp hi
        rw [hindex, UInt32.toNat_ofNat']
        exact lt_of_le_of_lt (Nat.mod_le _ _) hlt
  · rintro ⟨e, e', he, he', input, hinput, hprev, hlt⟩
    unfold children
    rw [he, List.mem_filterMap]
    refine ⟨input.outputIndex.toNat, List.mem_range.mpr hlt, ?_⟩
    rw [UInt32.ofNat_toNat, ← hprev]
    exact hp.spends.lookup_eq he' (List.mem_map.mpr ⟨input, hinput, rfl⟩)

theorem mem_spends_of_mem_children {h t : Bytes32} (ht : t ∈ p.children h) :
    t ∈ p.spends.entries.map Sigma.snd := by
  unfold children at ht
  split at ht
  · cases ht
  · obtain ⟨i, -, hfound⟩ := List.mem_filterMap.mp ht
    exact List.mem_map.mpr ⟨_, AList.mem_lookup_iff.mp hfound, rfl⟩

/-- **`CollectDescendantsLocked` collects all children of what it collects.** -/
theorem closed_collectDescendants (p : Mempool) (h : Bytes32) :
    ∀ x ∈ p.collectDescendants h, ∀ y ∈ p.children x, y ∈ p.collectDescendants h := by
  have hall : ∀ x ∈ h :: p.spends.entries.map Sigma.snd, ∀ y ∈ p.children x,
      y ∈ h :: p.spends.entries.map Sigma.snd := by
    intro x _ y hy
    exact List.mem_cons_of_mem _ (mem_spends_of_mem_children hy)
  refine closed_explore hall _ 0 (List.nodup_singleton h) ?_ ?_ ?_
  · intro x hx
    rw [List.mem_singleton.mp hx]
    exact List.mem_cons_self ..
  · intro i hi
    exact absurd hi (Nat.not_lt_zero i)
  · simp [AList.keys, List.keys]

/-- **`RemoveRecursiveLocked` leaves no children behind.** -/
theorem Rep.clean_removeRecursive (hp : Rep p) (h : Bytes32) : Clean p (p.removeRecursive h) := by
  intro hash e he hgone t e' he' hspends
  have hdoomed : hash ∈ p.collectDescendants h := by
    by_contra hnot
    rw [lookup_removeRecursive, if_neg hnot] at hgone
    exact hgone he
  have hchild := hp.sound.mem_children.mpr
    ⟨e, e', he, (Cuts.refl.branch h).loses.within t e' he', hspends⟩
  have ht := closed_collectDescendants p h hash hdoomed t hchild
  rw [lookup_removeRecursive, if_pos ht] at he'
  cases he'

/-- Entries are taken out together with their children. -/
structure Prunes (p q : Mempool) : Prop where
  shrinks : Shrinks p q
  clean : Clean p q

theorem Prunes.within (h : Prunes p q) : Within q p := fun _ _ he => h.shrinks.index he

theorem Prunes.trans (hpq : Prunes p q) (hqr : Prunes q r) : Prunes p r where
  shrinks := hpq.shrinks.trans hqr.shrinks
  clean := hpq.clean.trans hqr.within hqr.clean

theorem Rep.prunes (hp : Rep p) : Prunes p p := ⟨hp.shrinks, Clean.refl p⟩

theorem SameTables.prunes (h : SameTables p q) (hp : Rep p) : Prunes p q where
  shrinks := h.shrinks hp
  clean := by
    intro hash e he hgone
    rw [h.index] at hgone
    exact absurd he hgone

/-- **`RemoveForBlock` and `TrimLocked` leave no children behind.** -/
theorem Cuts.prunes (h : Cuts p q) (hp : Rep p) : Prunes p q := by
  induction h with
  | refl => exact hp.prunes
  | branch hash _ ih =>
    have hturn := (Cuts.refl.branch hash).loses.shrinks ih.shrinks.rep
    exact ih.trans ⟨hturn, ih.shrinks.rep.clean_removeRecursive hash⟩
  | aside _ hsame ih => exact ih.trans (hsame.prunes ih.shrinks.rep)

end Recursive

/-! ## 3. Expiry -/

section Expiry

variable {p q : Mempool}

/-- The entry is too old at the time `now`. -/
def Entry.Expired (e : Entry) (now : Int64) : Prop := e.entryTime < cutoff now

/-- The children of expired entries have expired as well. -/
def ExpireTogether (p : Mempool) (now : Int64) : Prop :=
  ∀ h e t e', p.index.lookup h = some e → p.index.lookup t = some e' → e.Expired now →
    SpendsOutputOf e'.tx e.tx → e'.Expired now

theorem Rep.expired_of_gone (hp : Rep p) {now : Int64} {h : Bytes32} {e : Entry}
    (he : p.index.lookup h = some e) (hgone : (p.expireLocked now).index.lookup h ≠ some e) :
    e.Expired now := by
  by_contra hyoung
  exact hgone ((hp.lookup_expireLocked now).mpr ⟨he, hyoung⟩)

/-- **`ExpireLocked` leaves no children behind exactly when they expire together.** -/
theorem Rep.clean_expireLocked (hp : Rep p) (now : Int64) :
    Clean p (p.expireLocked now) ↔ ExpireTogether p now := by
  constructor
  · intro hclean h e t e' he he' hold hspends
    by_contra hyoung
    have hgone : (p.expireLocked now).index.lookup h ≠ some e := by
      intro hsome
      exact ((hp.lookup_expireLocked now).mp hsome).2 hold
    exact hclean h e he hgone t e' ((hp.lookup_expireLocked now).mpr ⟨he', hyoung⟩) hspends
  · intro htogether h e he hgone t e' he' hspends
    obtain ⟨he', hyoung⟩ := (hp.lookup_expireLocked now).mp he'
    exact hyoung (htogether h e t e' he he' (hp.expired_of_gone he hgone) hspends)

end Expiry

/-! ## 4. Adding -/

/-- The transaction spends no output of an entry that expires. -/
def SpendsNoExpired (p : Mempool) (now : Int64) (tx : Transaction) : Prop :=
  ∀ h e, p.index.lookup h = some e → e.Expired now → ¬ SpendsOutputOf tx e.tx

section Add

variable [Doubles] {p q : Mempool} {now fee : Int64} {tx : Transaction}

/-- The part of `AddTransaction` after expiry: entering keeps a pool clean if the transaction spends
nothing of what is gone, and trimming prunes. -/
theorem Clean.addTransaction (hq : Rep q) (hroom : tx.isValid = .ok true → Room q tx)
    (h : Clean p (q.expireLocked now))
    (htx : ∀ hash e, p.index.lookup hash = some e →
      (q.expireLocked now).index.lookup hash ≠ some e → ¬ SpendsOutputOf tx e.tx) :
    Clean p (q.addTransaction now tx fee).1 := by
  have hexpired := hq.expireLocked now
  rcases addTransaction_cases q now tx fee with ⟨-, hsame, -⟩ | ⟨henters, heq, -⟩
  · have hsame := hsame.prunes hexpired.rep
    exact h.trans hsame.within hsame.clean
  · have hpolicy := (checkPolicy_spec (q.expireLocked now) now tx fee).1
    have hchecked := hpolicy.prunes hexpired.rep
    obtain ⟨hvalid, -, hnew⟩ := validateForPool_ok henters.valid
    have hentered : Clean p ((q.expireLocked now).entered now tx fee) := by
      refine (h.trans hchecked.within hchecked.clean).insertEntry ?_ ?_
      · rw [hpolicy.index]
        exact hnew
      · intro hash e he hgone
        rw [hpolicy.index] at hgone
        exact htx hash e he hgone
    have htrim : Prunes _ (((q.expireLocked now).entered now tx fee).trimLocked now) :=
      (cuts_trimLocked _ now).prunes (hexpired.rep.entered (hexpired.room (hroom hvalid)) henters)
    rw [heq]
    exact hentered.trans htrim.within htrim.clean

/-- **`AddTransaction` leaves no orphans** if what expires takes its children along. -/
theorem Rep.clean_addTransaction (hp : Rep p) (hroom : Room p tx) (htogether : ExpireTogether p now)
    (htx : SpendsNoExpired p now tx) : Clean p (p.addTransaction now tx fee).1 := by
  refine Clean.addTransaction hp (fun _ => hroom) ((hp.clean_expireLocked now).mpr htogether) ?_
  intro hash e he hgone
  exact htx hash e he (hp.expired_of_gone he hgone)

theorem Rep.lookup_addTransaction (hp : Rep p) (hroom : Room p tx)
    (hbytes : p.totalBytes + sizeOf tx ≤ p.maxBytes) {h : Bytes32} (hne : h ≠ tx.getHash) :
    (p.addTransaction now tx fee).1.index.lookup h = (p.expireLocked now).index.lookup h := by
  have hexpired := hp.expireLocked now
  rcases addTransaction_cases p now tx fee with ⟨-, hsame, -⟩ | ⟨-, heq, -⟩
  · rw [hsame.index]
  · have hpolicy := (checkPolicy_spec (p.expireLocked now) now tx fee).1
    have hfits : ((p.expireLocked now).entered now tx fee).totalBytes ≤
        ((p.expireLocked now).entered now tx fee).maxBytes := by
      change ((p.expireLocked now).checkPolicy now tx fee).1.totalBytes + sizeOf tx ≤
        ((p.expireLocked now).checkPolicy now tx fee).1.maxBytes
      have hle := UInt64.le_iff_toNat_le.mp hexpired.totalBytes
      have hlt := hroom.bytes
      rw [hpolicy.totalBytes, hpolicy.maxBytes, hexpired.maxBytes, UInt64.le_iff_toNat_le]
      rw [UInt64.le_iff_toNat_le, UInt64.toNat_add, Nat.mod_eq_of_lt hlt] at hbytes
      rw [UInt64.toNat_add, Nat.mod_eq_of_lt (by omega)]
      omega
    rw [heq, trimLocked_of_le hfits, lookup_entered, if_neg hne]

end Add

/-! ## 5. Loading -/

/-- There is room for a number of additions. -/
def Capacity (p : Mempool) (adds : Nat) : Prop :=
  p.sequenceCounter.toNat + adds < 2 ^ 64 ∧ p.maxBytes.toNat + Transaction.MAX_TX_SIZE < 2 ^ 64

/-- The callback leaves the pool alone or calls `AddTransaction` for the transaction it is shown, at
one of the given times. -/
def AdmitFn.AddsAt [Doubles] (admitFn : AdmitFn) (times : Set Int64) : Prop :=
  ∀ p tx, (admitFn p tx).1 = p ∨
    ∃ now ∈ times, ∃ fee, (admitFn p tx).1 = (p.addTransaction now tx fee).1

/-- The transaction spends no output of an entry. -/
def SpendsNoEntry (p : Mempool) (tx : Transaction) : Prop :=
  ∀ h e, p.index.lookup h = some e → ¬ SpendsOutputOf tx e.tx

/-- A pool on the way of a `Load` that began with `p` and can still make `adds` additions. -/
structure Loading (p : Mempool) (adds : Nat) (q : Mempool) : Prop where
  rep : Rep q
  fits : q.totalBytes ≤ q.maxBytes
  capacity : Capacity q adds
  clean : Clean p q
  known : ∀ h e, q.index.lookup h = some e → p.index.lookup h = some e ∨ SpendsNoEntry p e.tx

section Load

variable {p q r : Mempool} {adds : Nat}

theorem Loading.mono {fewer : Nat} (h : Loading p adds q) (hle : fewer ≤ adds) : Loading p fewer q :=
  { h with capacity := ⟨by have := h.capacity.1; omega, h.capacity.2⟩ }

theorem Loading.room (h : Loading p (adds + 1) q) {tx : Transaction} (hvalid : tx.isValid = .ok true) :
    Room q tx where
  seq := by
    have := h.capacity.1
    omega
  bytes := by
    have hsize := size_of_isValid hvalid
    have hfits := UInt64.le_iff_toNat_le.mp h.fits
    have hcapacity := h.capacity.2
    rw [toNat_sizeOf hsize]
    omega

/-- Entries that expire on the way do so with their children: a child of an entry of `p` is an
entry of `p`. -/
theorem Loading.clean_expireLocked (h : Loading p adds q) {now : Int64}
    (htogether : ExpireTogether p now) : Clean p (q.expireLocked now) := by
  refine h.clean.step (fun _ _ he => (h.rep.expireLocked now).index he) ?_
  intro hash e he hq hgone t e' he' hspends
  obtain ⟨hq', hyoung⟩ := (h.rep.lookup_expireLocked now).mp he'
  rcases h.known t e' hq' with hp' | hnone
  · exact hyoung (htogether hash e t e' he hp' (h.rep.expired_of_gone hq hgone) hspends)
  · exact hnone hash e he hspends

theorem Loading.add [Doubles] (h : Loading p (adds + 1) q) {now fee : Int64} {tx : Transaction}
    (htogether : ExpireTogether p now) (htx : SpendsNoEntry p tx) :
    Loading p adds (q.addTransaction now tx fee).1 := by
  have hclean : Clean p (q.addTransaction now tx fee).1 :=
    Clean.addTransaction h.rep h.room (h.clean_expireLocked htogether) fun hash e he _ => htx hash e he
  have hexpired := h.rep.expireLocked now
  have hseq := h.capacity.1
  rcases addTransaction_cases q now tx fee with ⟨-, hsame, -⟩ | ⟨henters, heq, -⟩
  · have hq := hexpired.trans (hsame.shrinks hexpired.rep)
    refine ⟨hq.rep, ?_, ⟨?_, ?_⟩, hclean, fun hash e he => h.known hash e (hq.index he)⟩
    · rw [hq.maxBytes]
      exact UInt64.le_trans hq.totalBytes h.fits
    · rw [hq.sequenceCounter]
      omega
    · rw [hq.maxBytes]
      exact h.capacity.2
  · have hpolicy := (checkPolicy_spec (q.expireLocked now) now tx fee).1
    have hroom := h.room (validateForPool_ok henters.valid).1
    have hin := hexpired.rep.entered (hexpired.room hroom) henters
    have htrim := hin.trimLocked now
    have hmax : (((q.expireLocked now).entered now tx fee).trimLocked now).maxBytes = q.maxBytes := by
      rw [htrim.maxBytes, ← hexpired.maxBytes, ← hpolicy.maxBytes]
      rfl
    have hcount : (((q.expireLocked now).entered now tx fee).trimLocked now).sequenceCounter =
        q.sequenceCounter + 1 := by
      rw [htrim.sequenceCounter, ← hexpired.sequenceCounter, ← hpolicy.sequenceCounter]
      rfl
    rw [heq] at hclean ⊢
    refine ⟨htrim.rep, htrim.rep.le_maxBytes (hin.trimLocked_ended now), ⟨?_, ?_⟩, hclean, ?_⟩
    · have hone : (1 : UInt64).toNat = 1 := rfl
      rw [hcount, UInt64.toNat_add, hone, Nat.mod_eq_of_lt (by omega)]
      omega
    · rw [hmax]
      exact h.capacity.2
    · intro hash e he
      have he := htrim.index he
      rw [lookup_entered] at he
      split at he
      · cases he
        exact .inr htx
      · exact h.known hash e (hexpired.index he)

/-- **One record**: the callback may add it, and the loop may. -/
theorem Loading.loadEntry [Doubles] (h : Loading p (adds + 2) q) {times : Set Int64}
    {admitFn : AdmitFn} (hcallback : admitFn.AddsAt times) (htogether : ∀ now ∈ times, ExpireTogether p now)
    {now clock : Int64} (hclock : clock ∈ times) {record : Transaction × Int64}
    (htx : SpendsNoEntry p record.1) :
    Loading p adds (q.loadEntry now clock admitFn record).1 := by
  obtain ⟨tx, entryTime⟩ := record
  unfold Mempool.loadEntry
  simp only
  split
  · exact h.mono (by omega)
  · have hcalled : Loading p (adds + 1) (admitFn q tx).1 := by
      rcases hcallback q tx with hsame | ⟨at', hat, fee, heq⟩
      · rw [hsame]
        exact h.mono (by omega)
      · rw [heq]
        exact h.add (htogether at' hat) htx
    rcases hcall : admitFn q tx with ⟨q', _ | fee⟩
    · rw [hcall] at hcalled
      exact hcalled.mono (by omega)
    · rw [hcall] at hcalled
      simp only
      split
      · exact hcalled.mono (by omega)
      · exact hcalled.add (htogether clock hclock) htx

theorem Loading.loadFrom [Doubles] {times : Set Int64} {admitFn : AdmitFn}
    (hcallback : admitFn.AddsAt times) (htogether : ∀ now ∈ times, ExpireTogether p now) (now : Int64) :
    ∀ (records : List (Int64 × Transaction × Int64)) {q : Mempool},
      Loading p (2 * records.length) q → (∀ record ∈ records, record.1 ∈ times) →
      (∀ record ∈ records, SpendsNoEntry p record.2.1) →
      Loading p 0 (Mempool.loadFrom now admitFn records q).1
  | [], _, h, _, _ => h
  | (clock, record) :: rest, q, h, hclocks, htxs => by
    have hhead : Loading p (2 * rest.length) (q.loadEntry now clock admitFn record).1 :=
      Loading.loadEntry (h.mono (by rw [List.length_cons]; omega)) hcallback htogether
        (hclocks _ (List.mem_cons_self ..)) (htxs _ (List.mem_cons_self ..))
    have htail := Loading.loadFrom hcallback htogether now rest hhead
      (fun r hr => hclocks r (List.mem_cons_of_mem _ hr))
      (fun r hr => htxs r (List.mem_cons_of_mem _ hr))
    unfold Mempool.loadFrom
    rcases hcall : q.loadEntry now clock admitFn record with ⟨q', restored | what⟩
    · rw [hcall] at htail
      simp only
      rcases hrest : Mempool.loadFrom now admitFn rest q' with ⟨q'', _ | what⟩
      · rw [hrest] at htail
        exact htail
      · rw [hrest] at htail
        exact htail
    · rw [hcall] at hhead
      exact hhead.mono (by omega)

end Load

/-! ## 6. The public operations -/

/-- A call of one of the operations that may remove entries, other than `Clear`. -/
inductive PublicOp where
  | add (now : Int64) (tx : Transaction) (fee : Int64)
  | remove (txHash : Bytes32)
  | removeForBlock (blockTxs : List Transaction)
  | load (buf : List UInt8) (now : Int64) (admitFn : AdmitFn) (clock : Nat → Int64)

namespace PublicOp

def run [Doubles] (p : Mempool) : PublicOp → Mempool
  | add now tx fee => (p.addTransaction now tx fee).1
  | remove txHash => (p.removeTransaction txHash).1
  | removeForBlock blockTxs => p.removeForBlock blockTxs
  | load buf now admitFn clock => (p.load buf now admitFn clock).1

def confirmed : PublicOp → List Bytes32
  | removeForBlock blockTxs => blockTxs.map Transaction.getHash
  | _ => []

/-- What is removed has no children, or takes them along. -/
def Meets [Doubles] (p : Mempool) : PublicOp → Prop
  | add now tx _ => Room p tx ∧ ExpireTogether p now ∧ SpendsNoExpired p now tx
  | remove txHash => ∀ e t e', p.index.lookup txHash = some e → p.index.lookup t = some e' →
      t ≠ txHash → ¬ SpendsOutputOf e'.tx e.tx
  | removeForBlock _ => True
  | load buf _ admitFn clock => ∃ times : Set Int64,
      admitFn.AddsAt times ∧ (∀ i < (readFile buf).length, clock i ∈ times) ∧
        (∀ now ∈ times, ExpireTogether p now) ∧
        (∀ record ∈ readFile buf, SpendsNoEntry p record.1) ∧
        Capacity p (2 * (readFile buf).length)

/-- Nothing else the call does can take an orphan out again. -/
def Plain (p : Mempool) : PublicOp → Prop
  | add now tx _ => Room p tx ∧ p.totalBytes + sizeOf tx ≤ p.maxBytes ∧ tx.getHash ∉ p.index ∧
      SpendsNoExpired p now tx
  | load .. => False
  | _ => True

end PublicOp

section Public

variable [Doubles] {p : Mempool}

omit [Doubles] in
/-- **`RemoveTransaction` leaves no orphans exactly when its entry has no children.** -/
theorem noOrphans_removeTransaction {txHash : Bytes32} :
    NoOrphans p (p.removeTransaction txHash).1 [] ↔
      ∀ e t e', p.index.lookup txHash = some e → p.index.lookup t = some e' →
        t ≠ txHash → ¬ SpendsOutputOf e'.tx e.tx := by
  have hlookup : ∀ h, (p.removeTransaction txHash).1.index.lookup h =
      if h = txHash then none else p.index.lookup h := lookup_removeLocked p txHash
  constructor
  · intro hnone e t e' he he' hne hspends
    have hgone : txHash ∉ (p.removeTransaction txHash).1.index := by
      rw [← AList.lookup_eq_none, hlookup, if_pos rfl]
    refine hnone txHash e he hgone List.not_mem_nil t e' ?_ (.child hspends)
    rw [hlookup, if_neg hne]
    exact he'
  · intro hchildless
    refine Clean.noOrphans ?_ []
    intro h e he hgone t e' he'
    have hself : h = txHash := by
      by_contra hne
      rw [hlookup, if_neg hne] at hgone
      exact hgone he
    subst hself
    rw [hlookup] at he'
    split at he'
    · cases he'
    next hne => exact hchildless e t e' he he' hne

omit [Doubles] in
theorem Rep.loading (hp : Rep p) (hfits : p.totalBytes ≤ p.maxBytes) {adds : Nat}
    (hcapacity : Capacity p adds) : Loading p adds p :=
  ⟨hp, hfits, hcapacity, Clean.refl p, fun _ _ he => .inl he⟩

theorem Rep.clean_load (hp : Rep p) (hfits : p.totalBytes ≤ p.maxBytes) {buf : List UInt8}
    {now : Int64} {admitFn : AdmitFn} {clock : Nat → Int64}
    (hmeets : PublicOp.Meets p (.load buf now admitFn clock)) :
    Clean p (p.load buf now admitFn clock).1 := by
  obtain ⟨times, hcallback, hclocks, htogether, htxs, hcapacity⟩ := hmeets
  have hlen : ((readFile buf).zipIdx.map fun record => (clock record.2, record.1)).length =
      (readFile buf).length := by
    rw [List.length_map, List.length_zipIdx]
  refine (Loading.loadFrom hcallback htogether now _ (hp.loading hfits (hlen ▸ hcapacity)) ?_ ?_).clean
  · intro record hrecord
    obtain ⟨⟨r, i⟩, hr, rfl⟩ := List.mem_map.mp hrecord
    exact hclocks i (List.snd_lt_of_mem_zipIdx hr)
  · intro record hrecord
    obtain ⟨⟨r, i⟩, hr, rfl⟩ := List.mem_map.mp hrecord
    exact htxs r (List.fst_mem_of_mem_zipIdx hr)

/-- Where nothing is trimmed, an entry that expires before its child leaves an orphan. -/
theorem Rep.expireTogether_of_noOrphans (hp : Rep p) {now fee : Int64} {tx : Transaction}
    (hroom : Room p tx) (hbytes : p.totalBytes + sizeOf tx ≤ p.maxBytes)
    (hnew : tx.getHash ∉ p.index)
    (hnone : NoOrphans p (p.addTransaction now tx fee).1 []) : ExpireTogether p now := by
  have hold : ∀ {h e}, p.index.lookup h = some e → h ≠ tx.getHash := by
    rintro h e he rfl
    exact hnew (AList.lookup_isSome.mp (by rw [he]; rfl))
  intro h e t e' he he' hexpired hspends
  by_contra hyoung
  have hgone : h ∉ (p.addTransaction now tx fee).1.index := by
    rw [← AList.lookup_eq_none, hp.lookup_addTransaction hroom hbytes (hold he),
      Option.eq_none_iff_forall_ne_some]
    intro e'' he''
    obtain ⟨hsame, hyoung'⟩ := (hp.lookup_expireLocked now).mp he''
    rw [he] at hsame
    cases hsame
    exact hyoung' hexpired
  refine hnone h e he hgone List.not_mem_nil t e' ?_ (.child hspends)
  rw [hp.lookup_addTransaction hroom hbytes (hold he')]
  exact (hp.lookup_expireLocked now).mpr ⟨he', hyoung⟩

/-- **A call whose removals take the children along leaves no orphans**, from every pool that a run
reaches; and it has to, where nothing else takes them out. -/
theorem noOrphans_of_meets (maxBytes : UInt64) (ops : List PoolOp)
    (hfits : PoolOp.Every PoolOp.Fits (new maxBytes) ops) (op : PublicOp) :
    let p := PoolOp.runAll (new maxBytes) ops
    (op.Meets p → NoOrphans p (op.run p) op.confirmed) ∧
      (op.Plain p → NoOrphans p (op.run p) op.confirmed → op.Meets p) := by
  obtain ⟨hrep, hle, -⟩ := (rep_new maxBytes).runAll ops UInt64.zero_le hfits
  generalize PoolOp.runAll (new maxBytes) ops = p at hrep hle
  cases op with
  | add now tx fee =>
    constructor
    · rintro ⟨hroom, htogether, htx⟩
      exact (hrep.clean_addTransaction hroom htogether htx).noOrphans _
    · rintro ⟨hroom, hbytes, hnew, htx⟩ hnone
      exact ⟨hroom, hrep.expireTogether_of_noOrphans hroom hbytes hnew hnone, htx⟩
  | remove txHash =>
    constructor
    · exact noOrphans_removeTransaction.mpr
    · intro _ hnone
      exact noOrphans_removeTransaction.mp hnone
  | removeForBlock blockTxs =>
    constructor
    · intro _
      exact ((cuts_removeForBlock p blockTxs).prunes hrep).clean.noOrphans _
    · exact fun _ _ => trivial
  | load buf now admitFn clock =>
    constructor
    · intro hmeets
      exact (hrep.clean_load hle hmeets).noOrphans _
    · exact fun hplain => hplain.elim

end Public

/-! ## 7. A parent and a child -/

section Family

theorem Rep.mem_of_mem_children {p : Mempool} (hp : Rep p) {h t : Bytes32} (ht : t ∈ p.children h) :
    t ∈ p.index := by
  obtain ⟨-, e', -, he', -⟩ := hp.sound.mem_children.mp ht
  exact AList.lookup_isSome.mp (by rw [he']; rfl)

theorem Rep.chainTooLong_of_few {p : Mempool} (hp : Rep p) (tx : Transaction)
    (hfew : p.index.keys.length < 25) : p.chainTooLong tx = false := by
  have hparents : ∀ b ∈ p.index.keys, ∀ a ∈ p.parents b, a ∈ p.index.keys := by
    intro b _ a hab
    obtain ⟨e, -, -, ha⟩ := hasParent_iff.mp hab
    exact ha
  have hstart : (p.parentsOf tx).foldl push [] ⊆ p.index.keys := by
    intro s hs
    rcases mem_pushAll.mp hs with hs | hs
    · cases hs
    · exact (mem_parentsOf.mp hs).2
  have habove := length_explore_le hparents hstart (nodup_pushAll List.nodup_nil) p.index.keys.length 0
  have hbelow : ∀ parent ∈ p.index, p.countDescendants parent < 25 := by
    intro parent hparent
    refine lt_of_le_of_lt (length_explore_le ?_ ?_ (List.nodup_singleton parent) _ 0) hfew
    · intro x _ y hy
      exact hp.mem_of_mem_children hy
    · intro x hx
      rw [List.mem_singleton.mp hx]
      exact hparent
  unfold chainTooLong
  rw [Bool.or_eq_false_iff]
  constructor
  · rw [decide_eq_false_iff_not, Nat.not_lt, countAncestors, MAX_ANCESTORS]
    omega
  · rw [List.any_eq_false]
    intro parent _
    rw [Bool.and_eq_true, decide_eq_true_eq, decide_eq_true_eq, MAX_DESCENDANTS, not_and]
    intro hparent
    have := hbelow parent hparent
    omega

/-- The pool that holds `source` from time 0 and its first branch from time 1. -/
structure Family (p : Mempool) (parent child : Entry) : Prop where
  filled : Filled p [branch 0, source]
  lookup_parent : p.index.lookup sourceHash = some parent
  lookup_child : p.index.lookup (branch 0).getHash = some child
  parent_tx : parent.tx = source
  child_tx : child.tx = branch 0
  parent_time : parent.entryTime = 0
  child_time : child.entryTime = 1

def familyOps : List PoolOp := [.add 0 source paymentFee, .add 1 (branch 0) paymentFee]

theorem family [Doubles] : PoolOp.Every PoolOp.Fits (new DEFAULT_MAX_BYTES) familyOps ∧
    ∃ parent child, Family (PoolOp.runAll (new DEFAULT_MAX_BYTES) familyOps) parent child := by
  have hne := (getHash_branch_ne_source (i := 0) (by decide))
  have hroot : Clear (new DEFAULT_MAX_BYTES) 0 source paymentFee :=
    filled_new.clear (by decide) (by decide) (by decide) List.not_mem_nil List.not_mem_nil
      ((rep_new _).chainTooLong_of_few _ (by decide)) (by decide)
  have hone := filled_new.insertEntry (by decide) hroot (by decide)
  have hrun : (new DEFAULT_MAX_BYTES).addTransaction 0 source paymentFee =
      ((new DEFAULT_MAX_BYTES).insertEntry 0 source paymentFee, .ret true) := hroot.addTransaction
  have hclear : Clear ((new DEFAULT_MAX_BYTES).insertEntry 0 source paymentFee) 1 (branch 0)
      paymentFee := by
    refine hone.clear (by decide) (by decide) (by decide) ?_ ?_ (hone.rep.chainTooLong_of_few _ ?_)
      (by decide)
    · intro hmem
      exact hne.1 ((List.mem_singleton.mp hmem).trans hashes_source.1)
    · intro hmem
      have heq : sourceHash = FixedBytes.ofNat 32 7 :=
        congrArg OutPoint.txHash (List.mem_singleton.mp hmem)
      exact (List.nodup_cons.mp nodup_hashes).1 (heq ▸ List.mem_cons_self ..)
    · decide
  have htwo := hone.insertEntry (by decide) hclear (by decide)
  have hrun' : ((new DEFAULT_MAX_BYTES).insertEntry 0 source paymentFee).addTransaction 1 (branch 0)
      paymentFee = (_, .ret true) := hclear.addTransaction
  have hall : PoolOp.runAll (new DEFAULT_MAX_BYTES) familyOps =
      ((new DEFAULT_MAX_BYTES).insertEntry 0 source paymentFee).insertEntry 1 (branch 0) paymentFee := by
    rw [familyOps, PoolOp.runAll_cons, PoolOp.runAll_cons, PoolOp.runAll_nil, PoolOp.run_add,
      PoolOp.run_add, hrun, hrun']
  constructor
  · refine ⟨(filled_new.bytes_fit (by decide)).2, ?_, trivial⟩
    rw [PoolOp.run_add, hrun]
    exact (hone.bytes_fit (by decide)).2
  · rw [hall]
    refine ⟨(new DEFAULT_MAX_BYTES).entryOf 0 source paymentFee,
      ((new DEFAULT_MAX_BYTES).insertEntry 0 source paymentFee).entryOf 1 (branch 0) paymentFee,
      htwo, ?_, ?_, rfl, rfl, rfl, rfl⟩
    · rw [lookup_insertEntry, if_neg hne.1.symm, lookup_insertEntry, if_pos hashes_source.1.symm]
    · rw [lookup_insertEntry, if_pos rfl]

theorem spendsOutputOf_branch : SpendsOutputOf (branch 0) source :=
  ⟨_, List.mem_singleton_self _, hashes_source.1.symm, by decide⟩

/-- **A parent that expires before its child, or that is removed by name, leaves an orphan.** -/
theorem orphans : ∃ ops : List PoolOp,
    @PoolOp.Every plainDoubles PoolOp.Fits (new DEFAULT_MAX_BYTES) ops ∧
    let p := @PoolOp.runAll plainDoubles (new DEFAULT_MAX_BYTES) ops
    (∃ txHash, ¬ NoOrphans p (p.removeTransaction txHash).1 []) ∧
      ∃ now tx fee, ¬ NoOrphans p (@addTransaction plainDoubles p now tx fee).1 [] := by
  let _ := plainDoubles
  obtain ⟨hfits, parent, child, hfamily⟩ := family
  refine ⟨familyOps, hfits, ⟨sourceHash, ?_⟩, MEMPOOL_EXPIRY_SECONDS + 1, branch 1, paymentFee, ?_⟩
  · intro hnone
    refine noOrphans_removeTransaction.mp hnone parent _ child hfamily.lookup_parent
      hfamily.lookup_child (getHash_branch_ne_source (by decide)).1 ?_
    rw [hfamily.parent_tx, hfamily.child_tx]
    exact spendsOutputOf_branch
  · intro hnone
    obtain ⟨hbytes, hroom⟩ := @Filled.bytes_fit sourceHash 1 1 _ _ hfamily.filled (by decide)
    have hnew : (branch 1).getHash ∉ (PoolOp.runAll (new DEFAULT_MAX_BYTES) familyOps).index := by
      refine hfamily.filled.not_mem ?_
      intro hmem
      rcases List.mem_cons.mp hmem with heq | hmem
      · exact getHash_branch_ne (by decide) (by decide) (by decide) heq
      · exact (getHash_branch_ne_source (by decide)).1
          ((List.mem_singleton.mp hmem).trans hashes_source.1)
    have htogether := hfamily.filled.rep.expireTogether_of_noOrphans hroom hbytes hnew hnone
    have hchild : child.Expired (MEMPOOL_EXPIRY_SECONDS + 1) := by
      refine htogether sourceHash parent _ child hfamily.lookup_parent hfamily.lookup_child ?_ ?_
      · rw [Entry.Expired, hfamily.parent_time]
        decide
      · rw [hfamily.parent_tx, hfamily.child_tx]
        exact spendsOutputOf_branch
    rw [Entry.Expired, hfamily.child_time] at hchild
    exact absurd hchild (by decide)

theorem Family.meets_remove [Doubles] {p : Mempool} {parent child : Entry} (h : Family p parent child) :
    PublicOp.Meets p (.remove (branch 0).getHash) := by
  intro e t e' he he' hne hspends
  have hself : e.tx = branch 0 := by
    rw [h.lookup_child] at he
    cases he
    exact h.child_tx
  obtain ⟨input, hinput, hprev, -⟩ := hspends
  rw [hself] at hprev
  rcases List.mem_cons.mp (h.filled.only he') with htx | htx
  · exact hne ((h.filled.rep.hash he').symm.trans (congrArg Transaction.getHash htx))
  · rw [List.mem_singleton.mp htx] at hinput
    rw [List.mem_singleton.mp hinput] at hprev
    exact (getHash_branch_ne_source (by decide)).2 hprev.symm

/-- The child is removed by name. -/
theorem noOrphans_child : ∃ (ops : List PoolOp) (op : PublicOp),
    let p := @PoolOp.runAll plainDoubles (new DEFAULT_MAX_BYTES) ops
    @PoolOp.Every plainDoubles PoolOp.Fits (new DEFAULT_MAX_BYTES) ops ∧
      @PublicOp.Meets plainDoubles p op ∧ NoOrphans p (@PublicOp.run plainDoubles p op) op.confirmed := by
  let _ := plainDoubles
  obtain ⟨hfits, parent, child, hfamily⟩ := family
  have hresult := noOrphans_of_meets DEFAULT_MAX_BYTES familyOps hfits (.remove (branch 0).getHash)
  exact ⟨familyOps, .remove (branch 0).getHash, hfits, hfamily.meets_remove,
    hresult.1 hfamily.meets_remove⟩

end Family

end Mempool

end Moneu
