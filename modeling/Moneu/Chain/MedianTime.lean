/-
# The median time past

`GetMedianTimePastLocked` takes the times of a block and of up to ten of its ancestors, sorts them and returns
the upper median.  A block is connected only if its time is past the median of its parent, so of the times of
the block NO MORE than before are below that median: one time comes in that is not below it, and one may drop
out at the other end.  Hence the median never goes back along a chain (`medianTimePast_mono`).

The first block is exempt from the check.  Its window has two times, and the upper median of two times is
the later one.
-/
import Moneu.Chain.RoundTrip
import Moneu.Lib.Median

namespace Moneu

open NetParams BlockData ChainState Median

/-! ## 1. The window -/

variable {bd : BlockData} {b q : Block} {p : List Block}

theorem pastTimes_take (bd : BlockData) : ∀ (n : Nat) (hash : Bytes32),
    pastTimes bd n hash = (pastTimes bd (n + 1) hash).take n
  | 0, _ => rfl
  | n + 1, hash => by
    rw [pastTimes, pastTimes]
    cases bd.readBlockIndex hash with
    | none => rfl
    | some entry =>
      dsimp only
      rw [List.take_succ_cons]
      split
      · rw [List.take_nil]
      · rw [← pastTimes_take bd n]

/-- The window of a block is its own time in front of the window of its parent. -/
theorem pastTimes_cons (h : IsPath bd (b :: q :: p)) (n : Nat) :
    pastTimes bd (n + 1) b.getHash = b.header.timestamp ::
      if q.getHash.isZero then [] else (pastTimes bd (n + 1) q.getHash).take n := by
  obtain ⟨pos, hentry⟩ := readBlockIndex_path h
  have hprev : b.header.prevBlockHash = q.getHash := by
    cases h with
    | cons _ hprev _ _ => exact hprev
  rw [pastTimes, hentry]
  simp only [indexEntry, hprev, pastTimes_take bd n]

theorem pastTimes_genesis (h : IsPath bd [buildGenesisBlock]) (n : Nat) :
    pastTimes bd (n + 1) buildGenesisBlock.getHash = [buildGenesisBlock.header.timestamp] := by
  obtain ⟨pos, hentry⟩ := readBlockIndex_path h
  have hprev : buildGenesisBlock.header.prevBlockHash.isZero = true := by decide
  rw [pastTimes, hentry]
  simp only [indexEntry, hprev, ↓reduceIte]

theorem pastTimes_ne_nil (h : IsPath bd (b :: p)) (n : Nat) :
    pastTimes bd (n + 1) b.getHash ≠ [] := by
  obtain ⟨pos, hentry⟩ := readBlockIndex_path h
  rw [pastTimes, hentry]
  exact List.cons_ne_nil _ _

theorem length_pastTimes_le (bd : BlockData) : ∀ (n : Nat) (hash : Bytes32),
    (pastTimes bd n hash).length ≤ n
  | 0, _ => Nat.le_refl 0
  | n + 1, hash => by
    rw [pastTimes]
    split
    · exact Nat.zero_le _
    · rw [List.length_cons]
      split
      · exact Nat.succ_le_succ (Nat.zero_le _)
      · exact Nat.succ_le_succ (length_pastTimes_le bd n _)

theorem isUpper_medianTime {times : List UInt64} (hne : times ≠ []) :
    IsUpper (· ≤ ·) times (medianTime times) := by
  obtain ⟨m, hm⟩ := exists_isUpper (r := fun a b : UInt64 => a ≤ b) hne
  have hmedian : medianTime times = m := by
    rw [medianTime, hm]
    rfl
  rw [hmedian]
  exact hm

/-! ## 2. One block -/

theorem Connects.past_median (h : Connects (q :: p) b) (hpath : IsPath bd (q :: p)) (hp : p ≠ [])
    {s : ChainState} (hinit : s.initialized = true) (hbd : s.blockData = bd) :
    s.getMedianTimePast q.getHash < b.header.timestamp := by
  -- The state of a node whose tip is `q`.
  have hfollows : Follows { s with bestChain := tipOf (q :: p), chainByHeight := [] } (q :: p) :=
    ⟨hinit, hbd ▸ hpath, rfl, .inr rfl⟩
  have hheader := h.header _ hfollows
  have hlength : p.length ≠ 0 := fun hzero => hp (List.length_eq_zero_iff.mp hzero)
  unfold headerExtendsTip at hheader
  simp only [tipOf, Bool.and_eq_true, Bool.or_eq_true, decide_eq_true_eq, hlength, false_or] at hheader
  exact of_decide_eq_true hheader.1.1.2

/-- **The median of a block is not before the median of its parent.** -/
theorem medianTime_step (hpath : IsPath bd (b :: q :: p))
    (hlater : p ≠ [] → medianTime (pastTimes bd MEDIAN_TIME_SPAN q.getHash) < b.header.timestamp) :
    medianTime (pastTimes bd MEDIAN_TIME_SPAN q.getHash) ≤
      medianTime (pastTimes bd MEDIAN_TIME_SPAN b.getHash) := by
  have hparent : IsPath bd (q :: p) := isPath_of_suffix hpath (List.suffix_cons b _) (by simp)
  have hold := isUpper_medianTime (pastTimes_ne_nil hparent 10)
  have hnew := isUpper_medianTime (pastTimes_ne_nil hpath 10)
  have hwindow := pastTimes_cons hpath 10
  change medianTime (pastTimes bd (10 + 1) q.getHash) ≤ medianTime (pastTimes bd (10 + 1) b.getHash)
  change p ≠ [] → medianTime (pastTimes bd (10 + 1) q.getHash) < b.header.timestamp at hlater
  generalize hm : medianTime (pastTimes bd (10 + 1) q.getHash) = m at *
  by_cases hp : p = []
  · -- The first block: of its two times one is the time of genesis, which is not below itself.
    subst hp
    cases hparent with
    | genesis hstored =>
      rw [pastTimes_genesis (.genesis hstored)] at hold hwindow
      obtain rfl : m = buildGenesisBlock.header.timestamp := List.mem_singleton.mp hold.mem
      have hzero : buildGenesisBlock.getHash.isZero = false := by
        rw [buildGenesisBlock_getHash]
        decide
      rw [hzero] at hwindow
      refine (rel_iff_below_le hnew _).mpr ?_
      rw [hwindow]
      refine (below_cons_le _ _ _).trans ?_
      exact Nat.le_of_eq (by simp [below])
  · have hle : m ≤ b.header.timestamp := UInt64.le_of_lt (hlater hp)
    by_cases hzero : q.getHash.isZero = true
    · -- The walk takes a parent with the hash zero for the end of the chain.
      rw [hzero, if_pos rfl] at hwindow
      rw [hwindow] at hnew
      rw [hwindow, List.mem_singleton.mp hnew.mem]
      exact hle
    · rw [if_neg hzero] at hwindow
      have hlen := length_pastTimes_le bd (10 + 1) q.getHash
      refine rel_of_below_le hold hnew ?_ ?_
      · rw [hwindow, List.length_cons, List.length_take]
        omega
      · rw [hwindow, below_cons_of_rel hle]
        exact below_sublist (List.take_sublist _ _)

/-! ## 3. Along a chain -/

theorem Inv.medianTimePast_le {s : ChainState} (h : Inv s p) {r : List Block} (hsuf : b :: q :: r <:+ p) :
    s.getMedianTimePast q.getHash ≤ s.getMedianTimePast b.getHash := by
  have hpath := isPath_of_suffix h.path hsuf (by simp)
  have hparent := isPath_of_suffix hpath (List.suffix_cons b _) (by simp)
  have hconnects := (h.valid.suffix hsuf (by simp)).connects
  exact medianTime_step hpath fun hr => hconnects.past_median hparent hr h.initialized rfl

theorem suffix_of_reverse {height : Nat} (hq : p.reverse[height]? = some q)
    (hb : p.reverse[height + 1]? = some b) : ∃ r, b :: q :: r <:+ p := by
  obtain ⟨hlt, hgetq⟩ := List.getElem?_eq_some_iff.mp hq
  obtain ⟨hlt', hgetb⟩ := List.getElem?_eq_some_iff.mp hb
  have hsplit : p.reverse.take height ++ q :: b :: p.reverse.drop (height + 1 + 1) = p.reverse := by
    rw [← hgetb, List.getElem_cons_drop, ← hgetq, List.getElem_cons_drop, List.take_append_drop]
  refine ⟨(p.reverse.take height).reverse, (p.reverse.drop (height + 1 + 1)).reverse, ?_⟩
  have hreverse := congrArg List.reverse hsplit
  simpa using hreverse

/-- **The median time past never goes back along a chain**, in every state of a node. -/
theorem medianTimePast_mono [Ed25519] {s : ChainState} (h : AtWork s) {height : Nat} {q b : Block}
    (hq : s.activeChain.reverse[height]? = some q) (hb : s.activeChain.reverse[height + 1]? = some b) :
    s.getMedianTimePast q.getHash ≤ s.getMedianTimePast b.getHash := by
  obtain ⟨p, hp⟩ := h.inv
  rw [hp.activeChain] at hq hb
  obtain ⟨r, hsuf⟩ := suffix_of_reverse hq hb
  exact hp.medianTimePast_le hsuf

/-- A new node that has taken its first block: the median of that block is not below that of genesis. -/
theorem medianTimePast_mono_a1 :
    ∃ s, @AtWork noSignatures s ∧ s.activeChain.reverse[0]? = some buildGenesisBlock ∧
      s.activeChain.reverse[0 + 1]? = some a1 ∧
      s.getMedianTimePast buildGenesisBlock.getHash ≤ s.getMedianTimePast a1.getHash := by
  obtain ⟨-, hknows, -⟩ := extend_a1
  have hwork : @AtWork noSignatures (@acceptBlock noSignatures noFaults fresh.1 1786725267 a1).1 :=
    @AtWork.reachable noSignatures _
      (@Reachable.accept noSignatures _ 1786725267 a1 (@Reachable.start noSignatures))
  have hchain := hknows.toInv.activeChain
  have hq : (@acceptBlock noSignatures noFaults fresh.1 1786725267 a1).1.activeChain.reverse[0]? =
      some buildGenesisBlock := by
    rw [hchain]
    rfl
  have hb : (@acceptBlock noSignatures noFaults fresh.1 1786725267 a1).1.activeChain.reverse[0 + 1]? =
      some a1 := by
    rw [hchain]
    rfl
  exact ⟨_, hwork, hq, hb, @medianTimePast_mono noSignatures _ hwork _ _ _ hq hb⟩

end Moneu
