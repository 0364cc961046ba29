/-
# A backlog of bounded weight

Items are appended at the back.  When their weight is over `cap`, items are dropped from the front until it is
not (`trim`).  Dropping after every batch comes to the same as dropping once at the end
(`foldl_push`), and what is kept is the LONGEST end of everything that was appended with a weight of at most
`cap` (`suffix_trim`).
-/
import Mathlib.Algebra.Ring.Nat
import Mathlib.Algebra.BigOperators.Group.List.Basic
import Mathlib.Data.List.Infix

namespace Moneu.Backlog

variable {α β : Type} (w : α → Nat) (cap : Nat)

def weight (l : List α) : Nat := (l.map w).sum

/-- Drop from the front until the weight is at most `cap`. -/
def trim : List α → List α
  | [] => []
  | a :: l => if weight w (a :: l) > cap then trim l else a :: l

variable {w cap}

theorem weight_append (l l' : List α) : weight w (l ++ l') = weight w l + weight w l' := by
  simp [weight]

theorem weight_reverse (l : List α) : weight w l.reverse = weight w l := by
  simp [weight]

theorem trim_suffix (l : List α) : trim w cap l <:+ l := by
  induction l with
  | nil => exact List.suffix_rfl
  | cons a l ih =>
    unfold trim
    split
    · exact ih.trans (List.suffix_cons a l)
    · exact List.suffix_rfl

theorem weight_trim (l : List α) : weight w (trim w cap l) ≤ cap := by
  induction l with
  | nil => exact Nat.zero_le _
  | cons a l ih =>
    unfold trim
    split
    · exact ih
    · omega

/-- **What is kept is the longest end that is light enough.** -/
theorem suffix_trim {l s : List α} (hs : s <:+ l) (hw : weight w s ≤ cap) : s <:+ trim w cap l := by
  induction l with
  | nil => exact hs
  | cons a l ih =>
    unfold trim
    split
    · rcases List.suffix_cons_iff.mp hs with rfl | hs
      · omega
      · exact ih hs
    · exact hs

theorem trim_trim_append (l l' : List α) : trim w cap (trim w cap l ++ l') = trim w cap (l ++ l') := by
  induction l with
  | nil => rfl
  | cons a l ih =>
    rw [trim]
    split
    · next hover =>
        have hmore : weight w (a :: (l ++ l')) > cap := by
          rw [← List.cons_append, weight_append]
          omega
        rw [ih, List.cons_append, trim, if_pos hmore]
    · rfl

theorem foldl_push (f : β → List α) : ∀ (batches : List β) (l : List α),
    batches.foldl (fun l b => trim w cap (l ++ f b)) (trim w cap l) =
      trim w cap (l ++ batches.flatMap f)
  | [], l => by simp
  | b :: batches, l => by
    rw [List.foldl_cons, trim_trim_append, foldl_push f batches, List.flatMap_cons, List.append_assoc]

theorem isPrefix_reverse_trim (l : List α) : (trim w cap l.reverse).reverse <+: l := by
  rw [← List.reverse_suffix, List.reverse_reverse]
  exact trim_suffix l.reverse

theorem longest_reverse_trim {l s : List α} (hs : s <+: l) (hw : weight w s ≤ cap) :
    s <+: (trim w cap l.reverse).reverse := by
  rw [← List.reverse_suffix, List.reverse_reverse]
  exact suffix_trim (List.reverse_suffix.mpr hs) (by rwa [weight_reverse])

end Moneu.Backlog
