/-
# Files that may fail

A directory is what its files hold.  Programs open files, write to the end of them, read them from the
start and remove them, and each of these operations may fail: `fails` says which ones do, by number.  An
operation that fails changes nothing.

`Reports` is what a program that checks its operations can promise: it succeeds and something holds, or
it reports a failure and there WAS one.  On a reliable directory it then succeeds.
-/
import Mathlib.Logic.Function.Basic

namespace Moneu.Files

/-- A directory, and the number of operations on it so far. -/
structure Dir where
  files : String → Option (List UInt8)
  ops : Nat

variable (fails : Nat → Bool)

/-- No operation fails. -/
def Reliable : Prop := ∀ n, fails n = false

/-! ## 1. Operations -/

/-- `fopen(path, "wb")`: the file is there, and it is empty. -/
def create (path : String) (d : Dir) : Dir × Option Unit :=
  if fails d.ops then ({ d with ops := d.ops + 1 }, none)
  else ({ files := Function.update d.files path (some []), ops := d.ops + 1 }, some ())

/-- `fopen(path, "rb")`: the bytes that are to be read. -/
def openRead (path : String) (d : Dir) : Dir × Option (List UInt8) :=
  ({ d with ops := d.ops + 1 }, if fails d.ops then none else d.files path)

/-- `fwrite` to the end of a file that is open for writing. -/
def append (path : String) (bytes : List UInt8) (d : Dir) : Dir × Option Unit :=
  if fails d.ops then ({ d with ops := d.ops + 1 }, none)
  else
    ({ files := Function.update d.files path (some ((d.files path).getD [] ++ bytes)), ops := d.ops + 1 },
      some ())

/-- `fread` of `n` bytes: the bytes, and what is left to be read. -/
def readBytes (n : Nat) (stream : List UInt8) (d : Dir) : Dir × Option (List UInt8 × List UInt8) :=
  ({ d with ops := d.ops + 1 },
    if fails d.ops || stream.length < n then none else some (stream.take n, stream.drop n))

/-- `remove(path)`, whose result nobody looks at. -/
def remove (path : String) (d : Dir) : Dir :=
  { files := if fails d.ops then d.files else Function.update d.files path none, ops := d.ops + 1 }

/-- `if (!run) { cleanup; return false; }` and the rest of the function. -/
def andThen {α β : Type} (run : Dir × Option α) (cleanup : Dir → Dir)
    (rest : α → Dir → Dir × Option β) : Dir × Option β :=
  match run with
  | (d, none) => (cleanup d, none)
  | (d, some a) => rest a d

/-! ## 2. What they do -/

/-- A run succeeded and `post` holds, or it reported a failure that there was. -/
def Reports {α : Type} (post : α → Dir → Prop) (run : Dir × Option α) : Prop :=
  (∃ a d, run = (d, some a) ∧ post a d) ∨ ∃ d, run = (d, none) ∧ ¬ Reliable fails

variable {fails}

theorem Reports.done {α : Type} {post : α → Dir → Prop} {a : α} {d : Dir} (h : post a d) :
    Reports fails post (d, some a) := .inl ⟨a, d, rfl, h⟩

theorem Reports.andThen {α β : Type} {post : α → Dir → Prop} {post' : β → Dir → Prop}
    {run : Dir × Option α} {cleanup : Dir → Dir} {rest : α → Dir → Dir × Option β}
    (h : Reports fails post run) (hrest : ∀ a d, post a d → Reports fails post' (rest a d)) :
    Reports fails post' (andThen run cleanup rest) := by
  rcases h with ⟨a, d, rfl, hpost⟩ | ⟨d, rfl, hfault⟩
  · exact hrest a d hpost
  · exact .inr ⟨cleanup d, rfl, hfault⟩

theorem Reports.imp {α : Type} {post post' : α → Dir → Prop} {run : Dir × Option α}
    (h : Reports fails post run) (himp : ∀ a d, post a d → post' a d) : Reports fails post' run := by
  rcases h with ⟨a, d, hrun, hpost⟩ | hfailed
  · exact .inl ⟨a, d, hrun, himp a d hpost⟩
  · exact .inr hfailed

theorem Reports.of_reliable {α : Type} {post : α → Dir → Prop} {run : Dir × Option α}
    (h : Reports fails post run) (hreliable : Reliable fails) : ∃ a d, run = (d, some a) ∧ post a d := by
  rcases h with hdone | ⟨-, -, hfault⟩
  · exact hdone
  · exact absurd hreliable hfault

theorem not_reliable {n : Nat} (h : fails n = true) : ¬ Reliable fails := fun hreliable => by
  rw [hreliable n] at h
  cases h

theorem create_reports (path : String) (d : Dir) :
    Reports fails (fun _ d' => d'.files = Function.update d.files path (some [])) (create fails path d) := by
  unfold create
  split
  · rename_i hfault
    exact .inr ⟨_, rfl, not_reliable hfault⟩
  · exact .inl ⟨_, _, rfl, rfl⟩

theorem openRead_reports {path : String} {d : Dir} {bytes : List UInt8} (h : d.files path = some bytes) :
    Reports fails (fun stream d' => stream = bytes ∧ d'.files = d.files) (openRead fails path d) := by
  unfold openRead
  split
  · rename_i hfault
    exact .inr ⟨_, rfl, not_reliable hfault⟩
  · rw [h]
    exact .inl ⟨_, _, rfl, rfl, rfl⟩

theorem append_reports {path : String} {d : Dir} {written : List UInt8} (bytes : List UInt8)
    (h : d.files path = some written) :
    Reports fails (fun _ d' => d'.files = Function.update d.files path (some (written ++ bytes)))
      (append fails path bytes d) := by
  unfold append
  split
  · rename_i hfault
    exact .inr ⟨_, rfl, not_reliable hfault⟩
  · rw [h]
    exact .inl ⟨_, _, rfl, rfl⟩

theorem readBytes_reports (bytes rest : List UInt8) (d : Dir) :
    Reports fails (fun r d' => r = (bytes, rest) ∧ d'.files = d.files)
      (readBytes fails bytes.length (bytes ++ rest) d) := by
  have hlong : ¬ (bytes ++ rest).length < bytes.length := by simp
  unfold readBytes
  rw [List.take_left, List.drop_left]
  cases hfault : fails d.ops with
  | true => exact .inr ⟨_, rfl, not_reliable hfault⟩
  | false =>
    rw [decide_eq_false hlong]
    exact .inl ⟨_, _, rfl, rfl, rfl⟩

theorem remove_of_ne {path other : String} (d : Dir) (h : other ≠ path) :
    (remove fails path d).files other = d.files other := by
  unfold remove
  dsimp only
  split
  · rfl
  · exact Function.update_of_ne h ..

theorem remove_of_reliable (hreliable : Reliable fails) (path : String) (d : Dir) :
    (remove fails path d).files = Function.update d.files path none := by
  unfold remove
  rw [hreliable, if_neg (by decide)]

end Moneu.Files
