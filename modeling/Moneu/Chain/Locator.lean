/-
# Block locators

A node that wants blocks sends a LOCATOR: hashes of its active chain at ever larger steps back from the
tip.  The other node looks for the first of them that is on its own active chain (`FindForkPoint`) and
answers with the hashes that follow it there (`GetBlockHashesAfter`).

The step is a `uint32_t` that doubles after ten entries.  It reaches `2 ^ 31` at most, whatever the height
of the chain is, so it never becomes zero and the loop ends after at most forty-two entries
(`getBlockLocator_spec`).

The loop of `GetBlockHashesAfter` over the height table counts heights in a `uint32_t` too, and tests them
with `h <= height`.  On a chain of height `2 ^ 32 - 1` the test cannot fail: the counter wraps to zero and
the answer goes on with the genesis block.  On every other chain the answer is right
(`getBlockHashesAfter_iff`).

Nothing here depends on what the blocks are: a `HashChain` is enough, and every chain state that follows
a path has one (`Follows.hashChain`).
-/
import Moneu.Chain.Runs

namespace Moneu

open NetParams ChainState

/-! ## 1. The three functions -/

namespace ChainState

/-- The loop of `GetBlockLocator`, for at most `fuel` turns. -/
def locatorLoop (s : ChainState) : Nat → List Bytes32 → UInt32 → Int → Option (List Bytes32)
  | 0, _, _, _ => none
  | fuel + 1, locator, step, height =>
    if height < 0 then some locator
    else
      match s.getBlockHashByHeight height.toNat with
      | none => some locator
      | some hash =>
        let locator := locator ++ [hash]
        if height = 0 then some locator
        else
          let step := if locator.length > 10 then step * 2 else step
          let height := height - step.toNat
          locatorLoop s fuel locator step (if height < 0 then 0 else height)

/-- `GetBlockLocator`, if its loop ends within `fuel` turns. -/
def getBlockLocator (s : ChainState) (fuel : Nat) : Option (List Bytes32) :=
  if !s.initialized then some [] else s.locatorLoop fuel [] 1 s.bestChain.height

/-- One turn of `FindForkPoint`: the height of a block that is on the active chain. -/
def forkAt (s : ChainState) (hash : Bytes32) : Option Nat :=
  match s.blockData.readBlockIndex hash with
  | none => none
  | some entry => if s.getBlockHashByHeight entry.nHeight = some hash then some entry.nHeight else none

def findForkPoint (s : ChainState) (locator : List Bytes32) : Option Nat :=
  if !s.initialized then none else locator.findSome? s.forkAt

/-- The loop of `GetBlockHashesAfter` over the height table, with room for `n` more hashes. -/
def tableLoop (table : List Bytes32) (height : UInt32) : Nat → UInt32 → List Bytes32
  | 0, _ => []
  | n + 1, h =>
    if h ≤ height then table.getD h.toNat FixedBytes.zero :: tableLoop table height n (h + 1) else []

/-- The walk that collects `n` hashes from the tip down, and where it ends. -/
def tailWalk (bd : BlockData) : Nat → Bytes32 → Option (List Bytes32 × Bytes32)
  | 0, cursor => some ([], cursor)
  | n + 1, cursor =>
    match bd.readBlockIndex cursor with
    | none => none
    | some entry => (tailWalk bd n entry.hashPrev).map fun (reversed, last) => (cursor :: reversed, last)

/-- The hashes above `fromHeight`, without the table. -/
def tailAfter (s : ChainState) (after : Bytes32) (fromHeight max : Nat) : List Bytes32 :=
  match tailWalk s.blockData (s.bestChain.height - fromHeight) s.bestChain.blockHash with
  | none => []
  | some (reversed, cursor) => if cursor = after then reversed.reverse.take max else []

def getBlockHashesAfter (s : ChainState) (after : Bytes32) (max : Nat) : List Bytes32 :=
  if !s.initialized || max = 0 then []
  else if after = s.bestChain.blockHash then []
  else
    match s.blockData.readBlockIndex after with
    | none => []
    | some entry =>
      if s.getBlockHashByHeight entry.nHeight ≠ some after then []
      else if ¬ s.bestChain.height > entry.nHeight then []
      else if s.chainByHeight.length = s.bestChain.height + 1 then
        tableLoop s.chainByHeight (UInt32.ofNat s.bestChain.height) max (UInt32.ofNat entry.nHeight + 1)
      else s.tailAfter after entry.nHeight max

end ChainState

/-! ## 2. The heights of a locator -/

/-- Heights that fall strictly from `top` to zero. -/
structure Descent (top : Nat) (heights : List Nat) : Prop where
  head : heights.head? = some top
  last : heights.getLast? = some 0
  falls : heights.Pairwise (· > ·)
  le_top : ∀ i ∈ heights, i ≤ top

theorem Descent.zero : Descent 0 [0] := ⟨rfl, rfl, List.pairwise_singleton .., by simp⟩

theorem Descent.cons {top next : Nat} {heights : List Nat} (h : Descent next heights) (hlt : next < top) :
    Descent top (top :: heights) where
  head := rfl
  last := by
    rw [List.getLast?_cons, h.last]
    rfl
  falls := List.pairwise_cons.mpr ⟨fun i hi => (h.le_top i hi).trans_lt hlt, h.falls⟩
  le_top := by
    intro i hi
    rcases List.mem_cons.mp hi with rfl | hi
    · exact Nat.le_refl i
    · exact (h.le_top i hi).trans hlt.le

/-- The loop of `GetBlockLocator` after `n` entries: the step is the power of two it should be, and the
height leaves room for it below `2 ^ 32`. -/
structure AtTurn (n : Nat) (step : UInt32) (height : Nat) : Prop where
  step_eq : step.toNat = 2 ^ (n - 10)
  room : height = 0 ∨ height + 2 ^ (n - 9) ≤ 2 ^ 32

/-- **While the height is above zero there are few entries**, and the step has not wrapped around. -/
theorem AtTurn.few {n : Nat} {step : UInt32} {height : Nat} (h : AtTurn n step height) (hpos : 0 < height) :
    n ≤ 40 := by
  rcases h.room with hzero | hroom
  · omega
  · have hpow : 2 ^ (n - 9) < 2 ^ 32 := by omega
    have hlt := (Nat.pow_lt_pow_iff_right (by decide)).mp hpow
    omega

theorem AtTurn.next {n : Nat} {step : UInt32} {height : Nat} (h : AtTurn n step height) (hpos : 0 < height) :
    AtTurn (n + 1) (if n + 1 > 10 then step * 2 else step)
      (height - (if n + 1 > 10 then step * 2 else step).toNat) ∧
      0 < (if n + 1 > 10 then step * 2 else step).toNat := by
  have hfew := h.few hpos
  have hstep : (if n + 1 > 10 then step * 2 else step).toNat = 2 ^ (n + 1 - 10) := by
    split
    · rename_i hmany
      have hpow : 2 ^ (n - 10) * 2 = 2 ^ (n + 1 - 10) := by
        rw [← Nat.pow_succ]
        congr 1
        omega
      have hlt : 2 ^ (n + 1 - 10) < 2 ^ 32 := Nat.pow_lt_pow_right (by decide) (by omega)
      have htwo : (2 : UInt32).toNat = 2 := rfl
      rw [UInt32.toNat_mul, h.step_eq, htwo, hpow, Nat.mod_eq_of_lt hlt]
    · rename_i hfewer
      rw [h.step_eq, show n - 10 = 0 by omega, show n + 1 - 10 = 0 by omega]
  refine ⟨⟨hstep, ?_⟩, hstep ▸ Nat.two_pow_pos _⟩
  rw [hstep]
  rcases h.room with hzero | hroom
  · omega
  · -- A step further down leaves room for a step twice as large.
    by_cases hn : n < 9
    · rw [show n - 9 = 0 by omega] at hroom
      rw [show n + 1 - 9 = 0 by omega, show n + 1 - 10 = 0 by omega]
      omega
    · have hdouble : 2 ^ (n + 1 - 9) = 2 ^ (n - 9) * 2 := by
        rw [← Nat.pow_succ]
        congr 1
        omega
      rw [show n + 1 - 10 = n - 9 by omega, hdouble]
      omega

section Locator

variable {s : ChainState} {hashes : List Bytes32}

/-- **The loop visits falling heights and ends at genesis.** -/
theorem HashChain.locatorLoop (h : HashChain s hashes) : ∀ {fuel : Nat} {locator : List Bytes32}
    {step : UInt32} {height : Nat}, AtTurn locator.length step height → height < hashes.length →
    42 ≤ locator.length + fuel → locator.length ≤ 41 →
    ∃ heights, Descent height heights ∧ locator.length + heights.length ≤ 42 ∧
      s.locatorLoop fuel locator step height =
        some (locator ++ heights.map fun i => hashes.getD i FixedBytes.zero)
  | 0, locator, _, _, _, _, hfuel, hlen => by omega
  | fuel + 1, locator, step, height, hturn, hlt, hfuel, hlen => by
    have hhash : s.getBlockHashByHeight height = some (hashes.getD height FixedBytes.zero) := by
      rw [h.getBlockHashByHeight_eq, List.getD_eq_getElem?_getD, List.getElem?_eq_getElem hlt]
      rfl
    have hnonneg : ¬ (height : Int) < 0 := by omega
    unfold ChainState.locatorLoop
    rw [if_neg hnonneg, Int.toNat_natCast, hhash]
    dsimp only
    by_cases hzero : height = 0
    · subst hzero
      exact ⟨[0], .zero, by simp; omega, rfl⟩
    · have hpos := Nat.pos_of_ne_zero hzero
      have hfew := hturn.few hpos
      obtain ⟨hturn', hstep⟩ := hturn.next hpos
      have hlength : (locator ++ [hashes.getD height FixedBytes.zero]).length = locator.length + 1 := by simp
      rw [if_neg (by omega), hlength]
      generalize (if locator.length + 1 > 10 then step * 2 else step) = step' at hturn' hstep
      have hclamp : (if (height : Int) - step'.toNat < 0 then 0 else (height : Int) - step'.toNat) =
          ((height - step'.toNat : Nat) : Int) := by
        split <;> omega
      rw [hclamp]
      rw [← hlength] at hturn'
      have hfuel' : 42 ≤ (locator ++ [hashes.getD height FixedBytes.zero]).length + fuel := by omega
      obtain ⟨heights, hdescent, hbound, hrun⟩ := h.locatorLoop hturn' (by omega) hfuel' (by omega)
      refine ⟨height :: heights, hdescent.cons (by omega), by rw [List.length_cons]; omega, ?_⟩
      rw [hrun, List.append_assoc]
      rfl

theorem locatorLoop_mono (s : ChainState) : ∀ {fuel : Nat} {locator r : List Bytes32} {step : UInt32}
    {height : Int}, s.locatorLoop fuel locator step height = some r →
      s.locatorLoop (fuel + 1) locator step height = some r
  | fuel + 1, locator, r, step, height, hrun => by
    rw [ChainState.locatorLoop] at hrun ⊢
    split
    · rwa [if_pos ‹_›] at hrun
    · rw [if_neg ‹_›] at hrun
      cases hhash : s.getBlockHashByHeight height.toNat with
      | none => rwa [hhash] at hrun
      | some hash =>
        rw [hhash] at hrun
        dsimp only at hrun ⊢
        split
        · rwa [if_pos ‹_›] at hrun
        · rw [if_neg ‹_›] at hrun
          exact locatorLoop_mono s hrun

/-- **`GetBlockLocator`**, on a chain of any height. -/
theorem HashChain.getBlockLocator (h : HashChain s hashes) (hlen : hashes.length ≤ 2 ^ 32) :
    ∃ heights, Descent s.bestChain.height heights ∧ heights.length ≤ 42 ∧ ∀ fuel, 42 ≤ fuel →
      s.getBlockLocator fuel = some (heights.map fun i => hashes.getD i FixedBytes.zero) := by
  have hlength := h.length
  have hturn : AtTurn ([] : List Bytes32).length 1 s.bestChain.height := ⟨rfl, .inr (by simp; omega)⟩
  have hfuel : 42 ≤ ([] : List Bytes32).length + 42 := by simp
  obtain ⟨heights, hdescent, hbound, hrun⟩ := h.locatorLoop hturn (by omega) hfuel (by simp)
  refine ⟨heights, hdescent, by simpa using hbound, fun fuel hle => ?_⟩
  unfold ChainState.getBlockLocator
  rw [h.initialized, if_neg (by simp)]
  induction fuel, hle using Nat.le_induction with
  | base => exact hrun
  | succ fuel _ ih => exact locatorLoop_mono s ih

end Locator

/-! ## 3. The fork point -/

section Fork

variable {s : ChainState} {hashes other : List Bytes32}

/-- A turn of `FindForkPoint` finds the blocks of the active chain, at their heights. -/
theorem HashChain.forkAt_eq_some (h : HashChain s hashes) {hash : Bytes32} {i : Nat} :
    s.forkAt hash = some i ↔ hashes[i]? = some hash := by
  unfold forkAt
  constructor
  · intro hfork
    split at hfork
    · cases hfork
    · split at hfork
      · rename_i hon
        cases hfork
        rwa [h.getBlockHashByHeight_eq] at hon
      · cases hfork
  · intro hi
    obtain ⟨e, he, rfl, -⟩ := h.entry hi
    rw [he]
    dsimp only
    rw [h.getBlockHashByHeight_eq, if_pos hi]

/-- Two chains have the blocks at heights `0 .. f` in common, and no others. -/
structure Shares (hashes other : List Bytes32) (f : Nat) : Prop where
  lt_length : f < hashes.length
  same : ∀ i ≤ f, hashes[i]? = other[i]?
  only : ∀ {i j : Nat} {hash : Bytes32}, hashes[i]? = some hash → other[j]? = some hash → j ≤ f

theorem Shares.forkAt {f : Nat} (hshares : Shares hashes other f) (h : HashChain s hashes) {j : Nat}
    (hj : j < other.length) :
    s.forkAt (other.getD j FixedBytes.zero) = if j ≤ f then some j else none := by
  have hother : other[j]? = some (other.getD j FixedBytes.zero) := by
    rw [List.getD_eq_getElem?_getD, List.getElem?_eq_getElem hj]
    rfl
  split
  · rename_i hle
    exact h.forkAt_eq_some.mpr ((hshares.same j hle).trans hother)
  · rename_i hnot
    rw [Option.eq_none_iff_forall_not_mem]
    intro i hi
    exact hnot (hshares.only (h.forkAt_eq_some.mp hi) hother)

theorem findSome?_eq_find? {f : Nat} {g : Nat → Option Nat} : ∀ {heights : List Nat},
    (∀ j ∈ heights, g j = if j ≤ f then some j else none) →
      heights.findSome? g = heights.find? (· ≤ f)
  | [], _ => rfl
  | j :: heights, hg => by
    obtain ⟨hj, hrest⟩ := List.forall_mem_cons.mp hg
    by_cases hle : j ≤ f
    · simp [hj, hle]
    · simp [hj, hle, findSome?_eq_find? hrest]

/-- The first of falling heights that is at most `f` is the largest such height. -/
theorem Descent.find? {top f : Nat} {heights : List Nat} (h : Descent top heights) :
    ∃ k, heights.find? (· ≤ f) = some k ∧ k ∈ heights ∧ k ≤ f ∧ ∀ j ∈ heights, j ≤ f → j ≤ k := by
  have hzero : 0 ∈ heights := List.mem_of_getLast? h.last
  obtain ⟨k, hk⟩ : ∃ k, heights.find? (· ≤ f) = some k :=
    Option.isSome_iff_exists.mp (List.find?_isSome.mpr ⟨0, hzero, by simp⟩)
  obtain ⟨hle, before, after, rfl, hbefore⟩ := List.find?_eq_some_iff_append.mp hk
  refine ⟨k, hk, by simp, by simpa using hle, fun j hj hjf => ?_⟩
  rcases List.mem_append.mp hj with hj | hj
  · have hnot := hbefore j hj
    simp at hnot
    omega
  · rcases List.mem_cons.mp hj with rfl | hj
    · exact Nat.le_refl j
    · have hfalls := (List.pairwise_append.mp h.falls).2.1
      exact (List.rel_of_pairwise_cons hfalls hj).le

/-- **`FindForkPoint`** on the locator of another node. -/
theorem Shares.findForkPoint {f top : Nat} {heights : List Nat} (hshares : Shares hashes other f)
    (h : HashChain s hashes) (hdescent : Descent top heights) (htop : top < other.length) :
    ∃ k, s.findForkPoint (heights.map fun i => other.getD i FixedBytes.zero) = some k ∧
      k ∈ heights ∧ k ≤ f ∧ ∀ j ∈ heights, j ≤ f → j ≤ k := by
  obtain ⟨k, hk, hspec⟩ := hdescent.find? (f := f)
  refine ⟨k, ?_, hspec⟩
  unfold ChainState.findForkPoint
  rw [h.initialized, if_neg (by simp), List.findSome?_map, ← hk]
  exact findSome?_eq_find? fun j hj => hshares.forkAt h ((hdescent.le_top j hj).trans_lt htop)

end Fork

/-! ## 4. The blocks that follow -/

section After

variable {s : ChainState} {hashes : List Bytes32}

/-- The loop over the table, as long as the counter does not wrap around. -/
theorem tableLoop_eq {table : List Bytes32} {height : UInt32} (hlen : table.length = height.toNat + 1) :
    ∀ {n : Nat} {h : UInt32}, height.toNat < 2 ^ 32 - 1 ∨ h.toNat + n ≤ 2 ^ 32 → h.toNat ≤ table.length →
      tableLoop table height n h = (table.drop h.toNat).take n
  | 0, _, _, _ => by rw [List.take_zero, tableLoop]
  | n + 1, h, hfits, hle => by
    unfold tableLoop
    split
    · rename_i hin
      rw [UInt32.le_iff_toNat_le] at hin
      have hlt : h.toNat < table.length := by omega
      rw [List.drop_eq_getElem_cons hlt, List.take_succ_cons, List.getD_eq_getElem?_getD,
        List.getElem?_eq_getElem hlt, Option.getD_some]
      cases n with
      | zero => rw [List.take_zero, tableLoop]
      | succ n =>
        have hone : (1 : UInt32).toNat = 1 := rfl
        have hnext : (h + 1).toNat = h.toNat + 1 := by
          rw [UInt32.toNat_add, hone, Nat.mod_eq_of_lt (by omega)]
        rw [tableLoop_eq hlen (by omega) (by omega), hnext]
    · rename_i hout
      rw [UInt32.le_iff_toNat_le] at hout
      rw [List.drop_of_length_le (by omega), List.take_nil]

/-- **At the largest height the test cannot fail**: the loop runs until there is no more room. -/
theorem length_tableLoop {table : List Bytes32} {height : UInt32} (hmax : height.toNat = 2 ^ 32 - 1) :
    ∀ {n : Nat} {h : UInt32}, (tableLoop table height n h).length = n
  | 0, _ => rfl
  | n + 1, h => by
    have hin : h ≤ height := by
      have hlt := h.toNat_lt
      rw [UInt32.le_iff_toNat_le]
      omega
    rw [tableLoop, if_pos hin, List.length_cons, length_tableLoop hmax]

/-- The walk from the tip collects the chain above the place where it ends. -/
theorem HashChain.tailWalk (h : HashChain s hashes) : ∀ {n i : Nat} {hash : Bytes32},
    hashes[i]? = some hash → n ≤ i → ∃ last, hashes[i - n]? = some last ∧
      tailWalk s.blockData n hash = some (((hashes.drop (i + 1 - n)).take n).reverse, last)
  | 0, i, hash, hi, _ => ⟨hash, hi, rfl⟩
  | n + 1, i, hash, hi, hn => by
    obtain ⟨e, he, -, hprev⟩ := h.entry hi
    obtain ⟨last, hlast, hwalk⟩ := h.tailWalk (hprev (by omega)) (by omega : n ≤ i - 1)
    rw [show i - 1 - n = i - (n + 1) by omega] at hlast
    rw [show i - 1 + 1 - n = i + 1 - (n + 1) by omega] at hwalk
    refine ⟨last, hlast, ?_⟩
    have htop : (hashes.drop (i + 1 - (n + 1)))[n]? = some hash := by
      rw [List.getElem?_drop, show i + 1 - (n + 1) + n = i by omega, hi]
    unfold ChainState.tailWalk
    rw [he]
    dsimp only
    rw [hwalk, Option.map_some, List.take_add_one, htop, Option.toList_some, List.reverse_append]
    rfl

theorem HashChain.tailAfter (h : HashChain s hashes) {i : Nat} {after : Bytes32}
    (hi : hashes[i]? = some after) (max : Nat) : s.tailAfter after i max = (hashes.drop (i + 1)).take max := by
  have hlen := h.length
  have hlt : i < hashes.length := (List.getElem?_eq_some_iff.mp hi).1
  obtain ⟨last, hlast, hwalk⟩ := h.tailWalk h.tip (Nat.sub_le s.bestChain.height i)
  rw [show s.bestChain.height - (s.bestChain.height - i) = i by omega, hi] at hlast
  rw [show s.bestChain.height + 1 - (s.bestChain.height - i) = i + 1 by omega] at hwalk
  cases hlast
  have hall : (hashes.drop (i + 1)).take (s.bestChain.height - i) = hashes.drop (i + 1) :=
    List.take_of_length_le (by rw [List.length_drop]; omega)
  unfold ChainState.tailAfter
  rw [hwalk]
  dsimp only
  rw [if_pos rfl, List.reverse_reverse, hall]

/-- **`GetBlockHashesAfter` returns the blocks that follow**, except when its counter wraps around: the
table is there, the height is the largest there is, and fewer blocks follow than there is room for. -/
theorem HashChain.getBlockHashesAfter_iff (h : HashChain s hashes) (hlen : hashes.length ≤ 2 ^ 32) {i : Nat}
    {after : Bytes32} (hi : hashes[i]? = some after) (max : Nat) :
    s.getBlockHashesAfter after max = (hashes.drop (i + 1)).take max ↔
      ¬ (s.chainByHeight.length = s.bestChain.height + 1 ∧ s.bestChain.height = 2 ^ 32 - 1 ∧
        i < s.bestChain.height ∧ s.bestChain.height - i < max) := by
  have hlength := h.length
  have hlt : i < hashes.length := (List.getElem?_eq_some_iff.mp hi).1
  obtain ⟨e, he, hheight, -⟩ := h.entry hi
  have hon : s.getBlockHashByHeight e.nHeight = some after := by rw [h.getBlockHashByHeight_eq, hheight, hi]
  unfold ChainState.getBlockHashesAfter
  rw [h.initialized]
  by_cases hmax : max = 0
  · subst hmax
    simp
  by_cases htip : after = s.bestChain.blockHash
  · -- Nothing follows the tip.
    have heq : i = s.bestChain.height := h.inj hi (htip ▸ h.tip)
    rw [if_neg (by simpa using hmax), if_pos htip, List.drop_of_length_le (by omega), List.take_nil]
    simp [heq]
  have hne : i ≠ s.bestChain.height := fun heq => htip (by
    rw [heq, h.tip] at hi
    exact (Option.some.inj hi).symm)
  have hbelow : s.bestChain.height > e.nHeight := by omega
  rw [if_neg (by simpa using hmax), if_neg htip, he]
  dsimp only
  rw [if_neg (not_not.mpr hon), if_neg (not_not.mpr hbelow), hheight]
  by_cases htable : s.chainByHeight.length = s.bestChain.height + 1
  · have hword : (UInt32.ofNat s.bestChain.height).toNat = s.bestChain.height := by
      rw [UInt32.toNat_ofNat', Nat.mod_eq_of_lt (by omega)]
    have hfirst : (UInt32.ofNat i + 1).toNat = i + 1 := by
      have hone : (1 : UInt32).toNat = 1 := rfl
      rw [UInt32.toNat_add, UInt32.toNat_ofNat', hone, Nat.mod_eq_of_lt (by omega : i < 2 ^ 32),
        Nat.mod_eq_of_lt (by omega)]
    rw [if_pos htable, h.table htable]
    by_cases hwraps : s.bestChain.height = 2 ^ 32 - 1 ∧ s.bestChain.height - i < max
    · refine iff_of_false (fun heq => ?_) (by rw [hlength]; omega)
      have hcount := congrArg List.length heq
      rw [length_tableLoop (by omega), List.length_take, List.length_drop] at hcount
      omega
    · refine iff_of_true ?_ (by rw [hlength]; omega)
      rw [tableLoop_eq (by omega) (by omega) (by omega), hfirst]
  · rw [if_neg htable, h.tailAfter hi]
    simp [htable]

end After

/-! ## 5. The request on the wire -/

/-- The payload of `RequestBlocksFrom`. -/
def getBlocksPayload (locator : List Bytes32) : List UInt8 :=
  writeLE32 (UInt32.ofNat locator.length) ++ locator.flatMap FixedBytes.data

/-- `HandleGetBlocks` up to its callback: the locator, or the misbehaviour that is added. -/
def readGetBlocks (payload : List UInt8) : Except Nat (List Bytes32) :=
  if payload.length < 4 then .error 5
  else
    let count := readLE32 payload
    if count = 0 ∨ count > 64 then .error 20
    else if payload.length < 4 + count.toNat * 32 then .error 10
    else
      -- The length was checked, so the loop does not read past the end.
      match Decoder.replicate (Decoder.array 32) count.toNat (payload.drop 4) with
      | .error _ => .error 10
      | .ok (locator, _) => .ok locator

/-- **A locator of one to sixty-four entries is accepted.** -/
theorem readGetBlocks_payload {locator : List Bytes32} (hpos : 0 < locator.length)
    (hlen : locator.length ≤ 64) : readGetBlocks (getBlocksPayload locator) = .ok locator := by
  have hcount : (UInt32.ofNat locator.length).toNat = locator.length := by
    rw [UInt32.toNat_ofNat', Nat.mod_eq_of_lt (by omega)]
  have hflat : (locator.flatMap FixedBytes.data).length = 32 * locator.length := by
    simp [List.length_flatMap, Nat.mul_comm]
  have hsize : (getBlocksPayload locator).length = 4 + 32 * locator.length := by
    rw [getBlocksPayload, List.length_append, length_writeLE32, hflat]
  have hread : readLE32 (getBlocksPayload locator) = UInt32.ofNat locator.length :=
    readLE32_writeLE32 ..
  have hdrop : (getBlocksPayload locator).drop 4 = locator.flatMap FixedBytes.data :=
    List.drop_left' (length_writeLE32 _)
  have hloop : Decoder.replicate (Decoder.array 32) locator.length (locator.flatMap FixedBytes.data) =
      .ok (locator, []) := by
    have hdecodes := Decoder.Decodes.replicate locator fun a _ => Decoder.Decodes.array a
    simpa using hdecodes []
  have hok : ¬ (UInt32.ofNat locator.length = 0 ∨ UInt32.ofNat locator.length > 64) := by
    rw [← UInt32.toNat_inj, gt_iff_lt, UInt32.lt_iff_toNat_lt, hcount]
    change ¬ (locator.length = 0 ∨ 64 < locator.length)
    omega
  unfold readGetBlocks
  rw [if_neg (by omega), hread]
  rw [if_neg hok, hcount, if_neg (by omega), hdrop, hloop]

/-! ## 6. Two nodes -/

/-- **Block locators.**  The node `t` asks the node `s`; their chains have heights `0 .. f` in common.

The locator of `t` goes from its tip to genesis at falling heights and is short enough for `s`.  In it
`s` finds the largest height that is at most `f`.  From there `s` answers with the blocks that follow on
its own chain, as many as there are or as it may send, UNLESS its counter wraps around. -/
theorem block_locators {s t : ChainState} {hashes other : List Bytes32} {f : Nat} (hs : HashChain s hashes)
    (ht : HashChain t other) (hlen : hashes.length ≤ 2 ^ 32) (hlen' : other.length ≤ 2 ^ 32)
    (hshares : Shares hashes other f) :
    ∃ heights locator, Descent t.bestChain.height heights ∧ locator.length ≤ 64 ∧
      heights.map (fun i => other[i]?) = locator.map some ∧
      (∀ fuel, 42 ≤ fuel → t.getBlockLocator fuel = some locator) ∧
      readGetBlocks (getBlocksPayload locator) = .ok locator ∧
      ∃ k, s.findForkPoint locator = some k ∧ (k ∈ heights ∧ k ≤ f ∧ ∀ j ∈ heights, j ≤ f → j ≤ k) ∧
        ∀ after, hashes[k]? = some after → ∀ max,
          (s.getBlockHashesAfter after max = (hashes.drop (k + 1)).take max ↔
            ¬ (s.chainByHeight.length = s.bestChain.height + 1 ∧ s.bestChain.height = 2 ^ 32 - 1 ∧
              k < s.bestChain.height ∧ s.bestChain.height - k < max)) := by
  obtain ⟨heights, hdescent, hcount, hrun⟩ := ht.getBlockLocator hlen'
  have htop : t.bestChain.height < other.length := by
    rw [ht.length]
    exact Nat.lt_succ_self _
  have hon : heights.map (fun i => other[i]?) =
      (heights.map fun i => other.getD i FixedBytes.zero).map some := by
    rw [List.map_map]
    refine List.map_congr_left fun i hi => ?_
    have hlt : i < other.length := (hdescent.le_top i hi).trans_lt htop
    simp [List.getElem?_eq_getElem hlt, List.getD_eq_getElem?_getD]
  have hpos : 0 < heights.length := List.length_pos_of_mem (List.mem_of_getLast? hdescent.last)
  obtain ⟨k, hfork, hlargest⟩ := hshares.findForkPoint hs hdescent htop
  refine ⟨heights, _, hdescent, by rw [List.length_map]; omega, hon, hrun,
    readGetBlocks_payload (by rwa [List.length_map]) (by rw [List.length_map]; omega), k, hfork, hlargest,
    fun after hafter max => hs.getBlockHashesAfter_iff hlen hafter max⟩

/-- A node that was just started asks another one. -/
theorem block_locators_fresh :
    HashChain fresh.1 (tableOf [buildGenesisBlock]) ∧
      Shares (tableOf [buildGenesisBlock]) (tableOf [buildGenesisBlock]) 0 ∧
      ∃ heights locator, Descent fresh.1.bestChain.height heights ∧ locator.length ≤ 64 ∧
        (∀ fuel, 42 ≤ fuel → fresh.1.getBlockLocator fuel = some locator) ∧
        ∃ k, fresh.1.findForkPoint locator = some k ∧ k ∈ heights ∧ k ≤ 0 := by
  have hchain : HashChain fresh.1 (tableOf [buildGenesisBlock]) := inv_fresh.2.toFollows.hashChain
  have hlen : (tableOf [buildGenesisBlock]).length ≤ 2 ^ 32 := by
    decide
  have hshares : Shares (tableOf [buildGenesisBlock]) (tableOf [buildGenesisBlock]) 0 := by
    refine ⟨?_, fun _ _ => rfl, fun {i j hash} _ hj => ?_⟩
    · rw [tableOf, List.length_reverse, List.length_map]
      decide
    · have hlt := (List.getElem?_eq_some_iff.mp hj).1
      exact Nat.le_of_lt_succ hlt
  obtain ⟨heights, locator, hdescent, hcount, -, hrun, -, k, hfork, ⟨hmem, hle, -⟩, -⟩ :=
    block_locators hchain hchain hlen hlen hshares
  exact ⟨hchain, hshares, heights, locator, hdescent, hcount, hrun, k, hfork, hmem, hle⟩

/-! ## 7. A chain of the largest height

The chain is written down as a whole: it has `2 ^ 32` blocks, and no proof looks at them one by one. -/

section Long

def longHash (i : Nat) : Bytes32 := FixedBytes.ofNat 32 i

def longChain (n : Nat) : List Bytes32 := (List.range n).map longHash

def longEntry (i : Nat) : BlockIndexEntry where
  hashPrev := longHash (i - 1)
  nTime := 0
  nHeight := i
  nBits := 0
  nChainWork := FixedBytes.zero
  blockPos := ⟨0, 0⟩

variable {n : Nat}

theorem beValue_longHash {i : Nat} (hi : i < 2 ^ 32) : ArithUint256.beValue (longHash i).data = i := by
  rw [longHash, FixedBytes.ofNat, ArithUint256.beValue_beDigits]
  exact Nat.mod_eq_of_lt (hi.trans (by decide))

theorem longHash_inj {i j : Nat} (hi : i < 2 ^ 32) (hj : j < 2 ^ 32) (h : longHash i = longHash j) : i = j := by
  rw [← beValue_longHash hi, ← beValue_longHash hj, h]

def longIndex (n : Nat) (hn : n ≤ 2 ^ 32) : AList fun _ : Bytes32 => BlockIndexEntry where
  entries := (List.range n).map fun i => ⟨longHash i, longEntry i⟩
  nodupKeys := by
    rw [List.NodupKeys, List.keys, List.map_map]
    refine List.Nodup.map_on (fun i hi j hj h => ?_) List.nodup_range
    rw [List.mem_range] at hi hj
    exact longHash_inj (by omega) (by omega) h

/-- A node whose active chain has `n` blocks, with its height table. -/
def longState (n : Nat) (hn : n ≤ 2 ^ 32) : ChainState :=
  { openDisk Disk.empty with
    bestChain := { ChainTip.null with blockHash := longHash (n - 1), height := n - 1 }
    initialized := true
    chainByHeight := longChain n
    blockData := BlockData.openDB { BlockDB.empty with index := longIndex n hn } }

theorem length_longChain (n : Nat) : (longChain n).length = n := by
  rw [longChain, List.length_map, List.length_range]

theorem getElem?_map_range {f : Nat → Bytes32} {i : Nat} {hash : Bytes32} :
    ((List.range n).map f)[i]? = some hash ↔ i < n ∧ f i = hash := by
  rw [List.getElem?_map, Option.map_eq_some_iff]
  constructor
  · rintro ⟨j, hj, rfl⟩
    obtain ⟨hlt, rfl⟩ := List.getElem?_eq_some_iff.mp hj
    rw [List.length_range] at hlt
    exact ⟨hlt, by rw [List.getElem_range]⟩
  · rintro ⟨hlt, rfl⟩
    exact ⟨i, List.getElem?_range hlt, rfl⟩

theorem getElem?_longChain {i : Nat} {hash : Bytes32} :
    (longChain n)[i]? = some hash ↔ i < n ∧ longHash i = hash :=
  getElem?_map_range

theorem hashChain_long (hpos : 0 < n) (hn : n ≤ 2 ^ 32) : HashChain (longState n hn) (longChain n) where
  initialized := rfl
  length := by
    rw [length_longChain]
    exact (Nat.succ_pred_eq_of_pos hpos).symm
  tip := getElem?_longChain.mpr ⟨Nat.pred_lt hpos.ne', rfl⟩
  table _ := rfl
  entry := by
    intro i hash hi
    obtain ⟨hlt, rfl⟩ := getElem?_longChain.mp hi
    refine ⟨longEntry i, ?_, rfl, fun _ => getElem?_longChain.mpr ⟨by omega, rfl⟩⟩
    exact AList.mem_lookup_iff.mpr (List.mem_map.mpr ⟨i, List.mem_range.mpr hlt, rfl⟩)

/-- A node that has all but the last block asks a node of the largest height.  The answer is not the
last block alone. -/
theorem wraps_around (hn : n = 2 ^ 32) (hle : n ≤ 2 ^ 32) (hle' : n - 1 ≤ 2 ^ 32) :
    ∃ locator, (longState (n - 1) hle').getBlockLocator 42 = some locator ∧
      (longState n hle).findForkPoint locator = some (n - 2) ∧
      (longState n hle).getBlockHashesAfter (longHash (n - 2)) 1000 ≠
        ((longChain n).drop (n - 1)).take 1000 := by
  have hs := hashChain_long (by omega) hle
  have ht := hashChain_long (by omega) hle'
  have hlen := length_longChain n
  have hlen' := length_longChain (n - 1)
  have hheight : (longState n hle).bestChain.height = n - 1 := rfl
  have hheight' : (longState (n - 1) hle').bestChain.height = n - 1 - 1 := rfl
  have hshares : Shares (longChain n) (longChain (n - 1)) (n - 2) := by
    refine ⟨by omega, fun i hi => ?_, fun {i j hash} _ hj => ?_⟩
    · rw [getElem?_longChain.mpr ⟨by omega, rfl⟩, getElem?_longChain.mpr ⟨by omega, rfl⟩]
    · have hlt := (getElem?_longChain.mp hj).1
      omega
  obtain ⟨heights, hdescent, -, hrun⟩ := ht.getBlockLocator (by omega)
  obtain ⟨k, hfork, hmem, hkf, hlargest⟩ := hshares.findForkPoint hs hdescent (by omega)
  have hk : k = n - 2 := by
    have hhead := hlargest _ (List.mem_of_head? hdescent.head) (by omega)
    omega
  refine ⟨_, hrun 42 (Nat.le_refl 42), hk ▸ hfork, fun heq => ?_⟩
  have hafter : (longChain n)[n - 2]? = some (longHash (n - 2)) := getElem?_longChain.mpr ⟨by omega, rfl⟩
  refine (hs.getBlockHashesAfter_iff (by omega) hafter 1000).mp ?_ ⟨?_, by omega, by omega, by omega⟩
  · rw [heq, show n - 2 + 1 = n - 1 by omega]
  · change (longChain n).length = n - 1 + 1
    omega

end Long

/-- **At the largest height the answer goes wrong.** -/
theorem getBlockHashesAfter_wraps :
    HashChain (longState (2 ^ 32) (by decide)) (longChain (2 ^ 32)) ∧
      HashChain (longState (2 ^ 32 - 1) (by decide)) (longChain (2 ^ 32 - 1)) ∧
      ∃ locator, (longState (2 ^ 32 - 1) (by decide)).getBlockLocator 42 = some locator ∧
        (longState (2 ^ 32) (by decide)).findForkPoint locator = some (2 ^ 32 - 2) ∧
        (longState (2 ^ 32) (by decide)).getBlockHashesAfter (longHash (2 ^ 32 - 2)) 1000 ≠
          ((longChain (2 ^ 32)).drop (2 ^ 32 - 1)).take 1000 :=
  ⟨hashChain_long (by decide) (by decide), hashChain_long (by decide) (by decide),
    wraps_around rfl (by decide) (by decide)⟩

end Moneu
