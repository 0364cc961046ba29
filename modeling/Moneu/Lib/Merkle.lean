/-
# Trees of pair hashes

A level of a Merkle tree is a list of nodes; the level above it hashes neighbours, and a last node
without a neighbour is hashed with itself.  A proof for a position is the list of the partners met
on the way up, and checking it is a `walk` from the node to the top.

Two facts about such trees, over any type of nodes and any pair hash.  The walk along the tree's
own partners ends at the top (`walk_path`).  A walk that ends at the top along OTHER partners, or
from another node, meets two different pairs with one hash, and `findClash` finds them
(`walk_eq_top`).
-/
import Mathlib.Algebra.Ring.Nat
import Mathlib.Data.List.GetD
import Mathlib.Logic.Basic

namespace Moneu.Merkle

variable {α : Type}

/-! ## 1. Levels -/

section Levels

variable (h : α → α → α)

def pairUp : List α → List α
  | [] => []
  | [last] => [h last last]
  | left :: right :: rest => h left right :: pairUp rest

def combine (idx : Nat) (node partner : α) : α :=
  if idx % 2 = 0 then h node partner else h partner node

def partnerIdx (width idx : Nat) : Nat :=
  let sibling := if idx % 2 = 0 then idx + 1 else idx - 1
  if sibling ≥ width then idx else sibling

def partner (d : α) (level : List α) (idx : Nat) : α := level.getD (partnerIdx level.length idx) d

theorem length_pairUp : ∀ level : List α, (pairUp h level).length = (level.length + 1) / 2
  | [] => by simp [pairUp]
  | [_] => by simp [pairUp]
  | _ :: _ :: rest => by
    simp only [pairUp, List.length_cons, length_pairUp rest]
    omega

theorem partnerIdx_add_two {width idx : Nat} (hidx : idx < width) :
    partnerIdx (width + 2) (idx + 2) = partnerIdx width idx + 2 := by
  have hparity : (idx + 2) % 2 = idx % 2 := Nat.add_mod_right idx 2
  unfold partnerIdx
  rw [hparity]
  dsimp only
  split
  · split
    · rw [if_pos (by omega)]
    · rw [if_neg (by omega)]
  · split
    · rw [if_pos (by omega)]
    · rw [if_neg (by omega)]
      omega

/-- **A node above is the hash of the node below with its partner.** -/
theorem getD_pairUp (d : α) : ∀ {level : List α} {idx : Nat}, idx < level.length →
    (pairUp h level).getD (idx / 2) d = combine h idx (level.getD idx d) (partner d level idx)
  | [], _, hidx => absurd hidx (Nat.not_lt_zero _)
  | [last], idx, hidx => by
    have hzero : idx = 0 := Nat.lt_one_iff.mp hidx
    subst hzero
    rfl
  | left :: right :: rest, 0, _ => by simp [pairUp, combine, partner, partnerIdx]
  | left :: right :: rest, 1, _ => by simp [pairUp, combine, partner, partnerIdx]
  | left :: right :: rest, idx + 2, hidx => by
    have hrest : idx < rest.length := by simpa using hidx
    have hdiv : (idx + 2) / 2 = idx / 2 + 1 := by omega
    have hparity : (idx + 2) % 2 = idx % 2 := Nat.add_mod_right idx 2
    have hnode : (left :: right :: rest).getD (idx + 2) d = rest.getD idx d := rfl
    have hpartner : partner d (left :: right :: rest) (idx + 2) = partner d rest idx := by
      unfold partner
      rw [List.length_cons, List.length_cons, partnerIdx_add_two hrest]
      rfl
    rw [hdiv, hnode, hpartner, pairUp, List.getD_cons_succ, getD_pairUp d hrest]
    simp only [combine, hparity]

end Levels

/-! ## 2. Walks -/

section Walks

variable (h : α → α → α) (d : α)

def top : Nat → List α → α
  | 0, level => level.headD d
  | fuel + 1, level => if 1 < level.length then top fuel (pairUp h level) else level.headD d

/-- The partners on the way from a position to the top. -/
def path : Nat → List α → Nat → List α
  | 0, _, _ => []
  | fuel + 1, level, idx =>
    if 1 < level.length then partner d level idx :: path fuel (pairUp h level) (idx / 2) else []

def walk : Nat → α → List α → α
  | _, node, [] => node
  | idx, node, partner :: rest => walk (idx / 2) (combine h idx node partner) rest

def depth : Nat → Nat → Nat
  | 0, _ => 0
  | fuel + 1, width => if 1 < width then depth fuel ((width + 1) / 2) + 1 else 0

theorem length_path : ∀ (fuel : Nat) (level : List α) (idx : Nat),
    (path h d fuel level idx).length = depth fuel level.length
  | 0, _, _ => rfl
  | fuel + 1, level, idx => by
    unfold path depth
    split
    · rw [List.length_cons, length_path fuel, length_pairUp]
    · rfl

/-- A level of at most `2 ^ fuel` nodes comes to its top in `fuel` steps. -/
theorem half_le {fuel width : Nat} (hwidth : width ≤ 2 ^ (fuel + 1)) : (width + 1) / 2 ≤ 2 ^ fuel := by
  rw [Nat.pow_succ] at hwidth
  omega

theorem walk_path : ∀ {fuel : Nat} {level : List α} {idx : Nat}, level.length ≤ 2 ^ fuel →
    idx < level.length → walk h idx (level.getD idx d) (path h d fuel level idx) = top h d fuel level
  | 0, level, idx, hwidth, hidx => by
    have hzero : idx = 0 := by simp at hwidth; omega
    subst hzero
    cases level with
    | nil => rfl
    | cons node rest => rfl
  | fuel + 1, level, idx, hwidth, hidx => by
    unfold path top
    split
    case isTrue =>
      have hup : idx / 2 < (pairUp h level).length := by
        rw [length_pairUp]
        omega
      rw [walk, ← getD_pairUp h d hidx]
      refine walk_path ?_ hup
      rw [length_pairUp]
      exact half_le hwidth
    case isFalse hone =>
      have hzero : idx = 0 := by omega
      subst hzero
      cases level with
      | nil => rfl
      | cons node rest => rfl

end Walks

/-! ## 3. Clashes -/

section Clashes

variable (h : α → α → α) (d : α)

/-- A node and its partner in the order in which they are hashed. -/
def ordered (idx : Nat) (node partner : α) : α × α :=
  if idx % 2 = 0 then (node, partner) else (partner, node)

theorem combine_eq (idx : Nat) (node partner : α) :
    combine h idx node partner = h (ordered idx node partner).1 (ordered idx node partner).2 := by
  unfold combine ordered
  split <;> rfl

theorem ordered_inj {idx : Nat} {node node' partner partner' : α}
    (heq : ordered idx node partner = ordered idx node' partner') : node = node' ∧ partner = partner' := by
  unfold ordered at heq
  split at heq
  · exact Prod.mk.inj heq
  · exact (Prod.mk.inj heq).symm

variable [DecidableEq α]

/-- The first place on a walk where the tree has another pair with the same hash. -/
def findClash : Nat → List α → Nat → α → List α → Option ((α × α) × (α × α))
  | 0, _, _, _, _ => none
  | _ + 1, _, _, _, [] => none
  | fuel + 1, level, idx, node, next :: rest =>
    let own := ordered idx (level.getD idx d) (partner d level idx)
    let other := ordered idx node next
    if own ≠ other ∧ h own.1 own.2 = h other.1 other.2 then some (own, other)
    else findClash fuel (pairUp h level) (idx / 2) (combine h idx node next) rest

theorem findClash_some : ∀ {fuel : Nat} {level : List α} {idx : Nat} {node : α} {rest : List α}
    {own other : α × α}, findClash h d fuel level idx node rest = some (own, other) →
    own ≠ other ∧ h own.1 own.2 = h other.1 other.2
  | 0, _, _, _, _, _, _, hfound => by cases hfound
  | fuel + 1, _, _, _, [], _, _, hfound => by cases hfound
  | fuel + 1, level, idx, node, next :: rest, own, other, hfound => by
    unfold findClash at hfound
    dsimp only at hfound
    split at hfound
    case isTrue hclash =>
      cases hfound
      exact hclash
    case isFalse => exact findClash_some hfound

/-- **A walk of the right length that ends at the top**, with no clash on its way, is the walk of the
tree: it starts at the tree's node and goes along the tree's partners. -/
theorem walk_eq_top : ∀ {fuel : Nat} {level : List α} {idx : Nat} {node : α} {partners : List α},
    level.length ≤ 2 ^ fuel → idx < level.length → partners.length = depth fuel level.length →
    walk h idx node partners = top h d fuel level →
    findClash h d fuel level idx node partners = none →
    node = level.getD idx d ∧ partners = path h d fuel level idx
  | 0, level, idx, node, partners, hwidth, hidx, hlen, hwalk, _ => by
    have hzero : idx = 0 := by simp at hwidth; omega
    subst hzero
    have hnil : partners = [] := List.length_eq_zero_iff.mp hlen
    subst hnil
    refine ⟨?_, rfl⟩
    cases level with
    | nil => exact hwalk
    | cons first rest => exact hwalk
  | fuel + 1, level, idx, node, partners, hwidth, hidx, hlen, hwalk, hclash => by
    unfold top at hwalk
    unfold depth at hlen
    unfold path
    split at hwalk
    case isTrue hmany =>
      rw [if_pos hmany] at hlen ⊢
      cases partners with
      | nil => cases hlen
      | cons next rest =>
        have hup : idx / 2 < (pairUp h level).length := by
          rw [length_pairUp]
          omega
        have hhalf : (pairUp h level).length ≤ 2 ^ fuel := by
          rw [length_pairUp]
          exact half_le hwidth
        unfold findClash at hclash
        dsimp only at hclash
        split at hclash
        case isTrue => cases hclash
        case isFalse hsame =>
          rw [List.length_cons, Nat.succ_inj] at hlen
          obtain ⟨hnode, hrest⟩ := walk_eq_top hhalf hup (by rw [hlen, length_pairUp]) hwalk hclash
          -- the hash above is the tree's, so the pair is the tree's or a clash was missed
          rw [getD_pairUp h d hidx, combine_eq, combine_eq] at hnode
          have hpair : ordered idx (level.getD idx d) (partner d level idx) = ordered idx node next :=
            Decidable.byContradiction fun hne => hsame ⟨hne, hnode.symm⟩
          obtain ⟨hfirst, hsecond⟩ := ordered_inj hpair
          exact ⟨hfirst.symm, by rw [hrest, hsecond]⟩
    case isFalse hone =>
      rw [if_neg hone] at hlen ⊢
      have hzero : idx = 0 := by omega
      subst hzero
      have hnil : partners = [] := List.length_eq_zero_iff.mp hlen
      subst hnil
      refine ⟨?_, rfl⟩
      cases level with
      | nil => exact hwalk
      | cons first rest => exact hwalk

end Clashes

/-! ## 4. Levels of equal nodes

When all nodes of a level are equal, so are those of the level above, and every path is the same. -/

section Equal

variable (h : α → α → α) (d : α)

/-- The first `n` of the nodes met on the way up from levels of the node `x`. -/
def doubles : Nat → α → List α
  | 0, _ => []
  | n + 1, x => x :: doubles n (h x x)

/-- The node `n` levels above `x`. -/
def doubled : Nat → α → α
  | 0, x => x
  | n + 1, x => doubled n (h x x)

theorem length_doubles : ∀ (n : Nat) (x : α), (doubles h n x).length = n
  | 0, _ => rfl
  | n + 1, x => by rw [doubles, List.length_cons, length_doubles n]

theorem pairUp_replicate (x : α) : ∀ n : Nat,
    pairUp h (List.replicate (2 * n) x) = List.replicate n (h x x)
  | 0 => rfl
  | n + 1 => by
    rw [Nat.mul_succ, List.replicate_succ, List.replicate_succ, pairUp, pairUp_replicate x n,
      List.replicate_succ]

theorem partner_replicate (x : α) {n idx : Nat} (hidx : idx < n) :
    partner d (List.replicate n x) idx = x := by
  have hpartner : partnerIdx n idx < n := by
    unfold partnerIdx
    dsimp only
    split <;> split <;> omega
  simp [partner, List.getD_eq_getElem?_getD, hpartner]

theorem path_replicate : ∀ {n fuel : Nat}, n ≤ fuel → ∀ (x : α) {idx : Nat}, idx < 2 ^ n →
    path h d fuel (List.replicate (2 ^ n) x) idx = doubles h n x
  | 0, 0, _, _, _, _ => rfl
  | 0, _ + 1, _, _, _, _ => rfl
  | n + 1, fuel + 1, hn, x, idx, hidx => by
    have hwide : 1 < (List.replicate (2 ^ (n + 1)) x).length := by
      rw [List.length_replicate, Nat.pow_succ]
      have := Nat.two_pow_pos n
      omega
    have hhalf : idx / 2 < 2 ^ n := by
      rw [Nat.pow_succ] at hidx
      omega
    unfold path
    rw [if_pos hwide, partner_replicate d x hidx, Nat.pow_succ', pairUp_replicate,
      path_replicate (Nat.le_of_succ_le_succ hn) (h x x) hhalf]
    rfl

theorem walk_doubles : ∀ (n idx : Nat) (x : α), walk h idx x (doubles h n x) = doubled h n x
  | 0, _, _ => rfl
  | n + 1, idx, x => by
    have hsame : combine h idx x x = h x x := by
      unfold combine
      split <;> rfl
    rw [doubles, walk, hsame, walk_doubles n, doubled]

end Equal

end Moneu.Merkle
