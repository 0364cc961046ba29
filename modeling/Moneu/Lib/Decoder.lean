/-
# Readers of byte buffers

A deserializer of the C++ kind walks an offset through a buffer and throws on bad input.  Here
the state is the rest of the buffer, so `offset + n > len` is `rest.length < n`, and a throw is
`Except.error` with its message.

Two relations say what a reader makes of bytes that were written for it.  `Decodes d enc a`: started
on the bytes `enc` followed by anything at all, `d` returns `a` and leaves that anything untouched.
`DecodesIff d enc a P`: it does so if `P` holds, and throws if it does not.  The second is for readers
that enforce limits their writer does not know of: each check adds its limit to `P`
(`DecodesIff.throwIf`).  Both compose along `bind` and over counted loops.
-/
import Moneu.Primitives.Bytes

namespace Moneu

/-- A reader: the rest of the buffer is the state, a C++ exception is an error. -/
abbrev Decoder (α : Type) := StateT (List UInt8) (Except String) α

namespace Decoder

variable {α β : Type}

/-! ## 1. The primitive readers -/

/-- `if (offset + n > len) throw …`. -/
def require (n : Nat) (msg : String) : Decoder Unit := fun s =>
  if s.length < n then .error msg else .ok ((), s)

/-- `if (c) throw …`. -/
def throwIf (c : Prop) [Decidable c] (msg : String) : Decoder Unit := fun s =>
  if c then .error msg else .ok ((), s)

def lift (e : Except String α) : Decoder α := fun s =>
  match e with
  | .ok a => .ok (a, s)
  | .error msg => .error msg

/-- Advance over `n` bytes and return them. -/
def vec (n : Nat) : Decoder (List UInt8) := fun s => .ok (s.take n, s.drop n)

/-- `memcpy` into an array; the caller has checked the length, and a read past the end of the
buffer, undefined in C++, is an error here. -/
def array (n : Nat) : Decoder (FixedBytes n) := fun s =>
  if h : n ≤ s.length then .ok (FixedBytes.take n s h, s.drop n)
  else .error "read past the end"

def u8 : Decoder UInt8
  | [] => .error "read past the end"
  | b :: s => .ok (b, s)

def le32 : Decoder UInt32 := fun s => .ok (readLE32 s, s.drop 4)

def le64 : Decoder UInt64 := fun s => .ok (readLE64 s, s.drop 8)

/-- `for (uint32_t i = 0; i < n; ++i) out.push_back(read())`. -/
def replicate (d : Decoder α) : Nat → Decoder (List α)
  | 0 => pure []
  | n + 1 => do
    let a ← d
    let as ← replicate d n
    return a :: as

/-! ## 2. Reading back what was written -/

variable {d : Decoder α} {enc : List UInt8} {a : α} {b : β} {n : Nat} {msg : String}
  {f : Unit → Decoder β}

/-- `d` reads the value `a` off the bytes `enc`, whatever follows them. -/
def Decodes (d : Decoder α) (enc : List UInt8) (a : α) : Prop :=
  ∀ rest, d (enc ++ rest) = .ok (a, rest)

theorem Decodes.pure (a : α) : Decodes (Pure.pure a) [] a := fun _ => rfl

theorem Decodes.bind {f : α → Decoder β} {enc' : List UInt8} (hd : Decodes d enc a)
    (hf : Decodes (f a) enc' b) : Decodes (d >>= f) (enc ++ enc') b := by
  intro rest
  simp only [Bind.bind, StateT.bind, Except.bind, List.append_assoc, hd (enc' ++ rest)]
  exact hf rest

/-- A length check passes when what is still to be read is long enough. -/
theorem Decodes.require (hn : n ≤ enc.length) (hf : Decodes (f ()) enc b) :
    Decodes (Decoder.require n msg >>= f) enc b := by
  intro rest
  have hlen : ¬ (enc ++ rest).length < n := by simp; omega
  simp only [Bind.bind, StateT.bind, Except.bind, Decoder.require, if_neg hlen]
  exact hf rest

theorem Decodes.throwIf {c : Prop} [Decidable c] (hc : ¬ c) (hf : Decodes (f ()) enc b) :
    Decodes (Decoder.throwIf c msg >>= f) enc b := by
  intro rest
  simp only [Bind.bind, StateT.bind, Except.bind, Decoder.throwIf, if_neg hc]
  exact hf rest

theorem Decodes.lift {e : Except String α} (h : e = .ok a) : Decodes (lift e) [] a := by
  rw [h]
  exact fun _ => rfl

theorem Decodes.vec (bytes : List UInt8) : Decodes (vec bytes.length) bytes bytes := by
  intro rest
  simp [Decoder.vec]

theorem Decodes.array (a : FixedBytes n) : Decodes (array n) a.data a := by
  intro rest
  have hlen : n ≤ (a.data ++ rest).length := by simp
  rw [Decoder.array, dif_pos hlen]
  simp [FixedBytes.take, List.take_left' a.size_eq, List.drop_left' a.size_eq]

theorem Decodes.u8 (b : UInt8) : Decodes u8 [b] b := fun _ => rfl

theorem Decodes.le32 (v : UInt32) : Decodes le32 (writeLE32 v) v := by
  intro rest
  simp [Decoder.le32, List.drop_left' (length_writeLE32 v)]

theorem Decodes.le64 (v : UInt64) : Decodes le64 (writeLE64 v) v := by
  intro rest
  simp [Decoder.le64, List.drop_left' (length_writeLE64 v)]

/-- **A counted loop reads back a list written value by value.** -/
theorem Decodes.replicate {enc : α → List UInt8} :
    ∀ as : List α, (∀ a ∈ as, Decodes d (enc a) a) →
      Decodes (replicate d as.length) (as.flatMap enc) as
  | [], _ => Decodes.pure []
  | a :: as, h => by
    have hhead := h a (List.mem_cons_self ..)
    have htail := Decodes.replicate as fun x hx => h x (List.mem_cons_of_mem _ hx)
    have hret : Decodes (Pure.pure (a :: as) : Decoder (List α)) [] (a :: as) := Decodes.pure _
    have hloop := hhead.bind (f := fun x => d.replicate as.length >>= fun xs => Pure.pure (x :: xs))
      (htail.bind (f := fun xs => Pure.pure (a :: xs)) hret)
    rw [List.append_nil] at hloop
    exact hloop

/-- `read(data, len, offset)`: started at an offset of a buffer, the value and the new offset. -/
def runAt (d : Decoder α) (data : List UInt8) (offset : Nat) : Except String (α × Nat) :=
  match d (data.drop offset) with
  | .error msg => .error msg
  | .ok (a, rest) => .ok (a, data.length - rest.length)

/-- **Bytes are read back wherever they stand in a buffer.** -/
theorem Decodes.runAt (h : Decodes d enc a) (before after : List UInt8) :
    d.runAt (before ++ (enc ++ after)) before.length = .ok (a, before.length + enc.length) := by
  simp only [Decoder.runAt, List.drop_left, h after, List.length_append, Except.ok.injEq,
    Prod.mk.injEq, true_and]
  omega

/-! ## 3. Reading back what the reader accepts -/

/-- Started on the bytes `enc` followed by anything, `d` reads the value `a` if `P` holds and
throws if it does not. -/
structure DecodesIff (d : Decoder α) (enc : List UInt8) (a : α) (P : Prop) : Prop where
  reads : P → Decodes d enc a
  throws : ¬ P → ∀ rest, ∃ msg, d (enc ++ rest) = .error msg

theorem Decodes.iff (h : Decodes d enc a) :
    DecodesIff d enc a True :=
  ⟨fun _ => h, fun hne => absurd trivial hne⟩

namespace DecodesIff

variable {d : Decoder α} {f : α → Decoder β} {enc enc' : List UInt8} {a : α} {b : β} {P Q : Prop}

theorem congr (h : DecodesIff d enc a P) (hiff : P ↔ Q) : DecodesIff d enc a Q := by
  rwa [← hiff]

/-- If `d` returns at all, it returns the value and has read its bytes. -/
theorem eq_of_ok (h : DecodesIff d enc a P) (rest : List UInt8) {r : α × List UInt8}
    (hr : d (enc ++ rest) = .ok r) : r = (a, rest) := by
  by_cases hP : P
  · rw [h.reads hP rest] at hr
    exact (Except.ok.inj hr).symm
  · obtain ⟨msg, hmsg⟩ := h.throws hP rest
    rw [hmsg] at hr
    cases hr

theorem bind (hd : DecodesIff d enc a P) (hf : DecodesIff (f a) enc' b Q) :
    DecodesIff (d >>= f) (enc ++ enc') b (P ∧ Q) := by
  refine ⟨fun h => (hd.reads h.1).bind (hf.reads h.2), fun hne rest => ?_⟩
  simp only [Bind.bind, StateT.bind, Except.bind, List.append_assoc]
  by_cases hP : P
  · rw [hd.reads hP (enc' ++ rest)]
    exact hf.throws (fun hQ => hne ⟨hP, hQ⟩) rest
  · obtain ⟨msg, hmsg⟩ := hd.throws hP (enc' ++ rest)
    rw [hmsg]
    exact ⟨msg, rfl⟩

theorem after (hd : Decodes d enc a) (hf : DecodesIff (f a) enc' b Q) :
    DecodesIff (d >>= f) (enc ++ enc') b Q :=
  (hd.iff.bind hf).congr (by simp)

theorem require {g : Unit → Decoder β} (hn : n ≤ enc.length) (hg : DecodesIff (g ()) enc b P) :
    DecodesIff (Decoder.require n msg >>= g) enc b P := by
  refine ⟨fun h => Decodes.require hn (hg.reads h), fun hne rest => ?_⟩
  have hlen : ¬ (enc ++ rest).length < n := by simp; omega
  simp only [Bind.bind, StateT.bind, Except.bind, Decoder.require, if_neg hlen]
  exact hg.throws hne rest

theorem throwIf {c : Prop} [Decidable c] {g : Unit → Decoder β} (hg : DecodesIff (g ()) enc b P) :
    DecodesIff (Decoder.throwIf c msg >>= g) enc b (¬ c ∧ P) := by
  refine ⟨fun h => Decodes.throwIf h.1 (hg.reads h.2), fun hne rest => ?_⟩
  simp only [Bind.bind, StateT.bind, Except.bind, Decoder.throwIf]
  by_cases hc : c
  · rw [if_pos hc]
    exact ⟨msg, rfl⟩
  · rw [if_neg hc]
    exact hg.throws (fun hP => hne ⟨hc, hP⟩) rest

theorem lift (h : DecodesIff d enc a P) : DecodesIff (Decoder.lift (d enc)) [] (a, []) P := by
  refine ⟨fun hP => Decodes.lift ?_, fun hne rest => ?_⟩
  · have hread := h.reads hP []
    rwa [List.append_nil] at hread
  · obtain ⟨msg, hmsg⟩ := h.throws hne []
    rw [List.append_nil] at hmsg
    rw [hmsg]
    exact ⟨msg, rfl⟩

/-- **A counted loop accepts a list written value by value if it accepts each value.** -/
theorem replicate {e : α → List UInt8} {p : α → Prop} :
    ∀ as : List α, (∀ x ∈ as, DecodesIff d (e x) x (p x)) →
      DecodesIff (Decoder.replicate d as.length) (as.flatMap e) as (∀ x ∈ as, p x)
  | [], _ => (Decodes.pure []).iff.congr (by simp)
  | x :: as, h => by
    have hhead := h x (List.mem_cons_self ..)
    have htail := replicate as fun y hy => h y (List.mem_cons_of_mem _ hy)
    have hret : DecodesIff (Pure.pure (x :: as) : Decoder (List α)) [] (x :: as) True :=
      (Decodes.pure _).iff
    have hloop := hhead.bind (f := fun y => d.replicate as.length >>= fun ys => Pure.pure (y :: ys))
      (htail.bind (f := fun ys => Pure.pure (x :: ys)) hret)
    rw [List.append_nil] at hloop
    exact hloop.congr (by simp)

end DecodesIff

/-! ## 4. Readers move forward -/

/-- What is left after `d` is no longer than what was there. -/
def Shrinks (d : Decoder α) : Prop := ∀ s r, d s = .ok r → r.2.length ≤ s.length

theorem Shrinks.pure (a : α) : Shrinks (Pure.pure a : Decoder α) := by
  intro s r h
  cases h
  exact Nat.le_refl _

theorem Shrinks.bind {f : α → Decoder β} (hd : Shrinks d) (hf : ∀ a, Shrinks (f a)) :
    Shrinks (d >>= f) := by
  intro s r h
  simp only [Bind.bind, StateT.bind, Except.bind] at h
  cases hrun : d s with
  | error e =>
    rw [hrun] at h
    cases h
  | ok x =>
    rw [hrun] at h
    exact Nat.le_trans (hf x.1 x.2 r h) (hd s x hrun)

theorem Shrinks.require (n : Nat) (msg : String) : Shrinks (Decoder.require n msg) := by
  intro s r h
  unfold Decoder.require at h
  split at h
  · cases h
  · cases h
    exact Nat.le_refl _

theorem Shrinks.throwIf (c : Prop) [Decidable c] (msg : String) : Shrinks (Decoder.throwIf c msg) := by
  intro s r h
  unfold Decoder.throwIf at h
  split at h
  · cases h
  · cases h
    exact Nat.le_refl _

theorem Shrinks.array (n : Nat) : Shrinks (Decoder.array n) := by
  intro s r h
  unfold Decoder.array at h
  split at h
  · cases h
    simp
  · cases h

theorem Shrinks.vec (n : Nat) : Shrinks (Decoder.vec n) := by
  intro s r h
  cases h
  simp

theorem Shrinks.le32 : Shrinks Decoder.le32 := by
  intro s r h
  cases h
  simp

theorem Shrinks.replicate (hd : Shrinks d) : ∀ n, Shrinks (Decoder.replicate d n)
  | 0 => Shrinks.pure []
  | n + 1 => hd.bind fun a => (Shrinks.replicate hd n).bind fun as => Shrinks.pure (a :: as)

theorem of_require_bind {s : List UInt8} {r : β × List UInt8}
    (h : (Decoder.require n msg >>= f) s = .ok r) : f () s = .ok r := by
  simp only [Bind.bind, StateT.bind, Except.bind, Decoder.require] at h
  split at h
  · cases h
  · rename_i x hx
    split at hx
    · cases hx
    · cases hx
      exact h

/-- A reader that starts with a `uint32_t` uses up bytes whenever there are any. -/
theorem Shrinks.le32_bind {f : UInt32 → Decoder β} (hf : ∀ a, Shrinks (f a)) {s : List UInt8}
    {r : β × List UInt8} (hs : s ≠ []) (h : (Decoder.le32 >>= f) s = .ok r) :
    r.2.length < s.length := by
  have hpos : 0 < s.length := List.length_pos_iff.mpr hs
  have hrest := hf _ _ _ h
  rw [List.length_drop] at hrest
  omega

/-! ## 5. What was read -/

/-- A reader started on at least `n` bytes that returns `a` has used up an initial part `w` of them
with `P w a`. -/
def Reads (n : Nat) (d : Decoder α) (P : List UInt8 → α → Prop) : Prop :=
  ∀ s a rest, n ≤ s.length → d s = .ok (a, rest) → ∃ w, s = w ++ rest ∧ P w a

namespace Reads

variable {d : Decoder α} {f : α → Decoder β} {n k : Nat} {P P' : List UInt8 → α → Prop}
  {Q : α → List UInt8 → β → Prop}

theorem imp (h : Reads n d P) (himp : ∀ w a, P w a → P' w a) : Reads n d P' := by
  intro s a rest hs hd
  obtain ⟨w, hw, hP⟩ := h s a rest hs hd
  exact ⟨w, hw, himp w a hP⟩

theorem weaken (h : Reads k d P) (hk : k ≤ n) : Reads n d P :=
  fun s a rest hs => h s a rest (hk.trans hs)

theorem pure (a : α) : Reads n (Pure.pure a) fun w b => w = [] ∧ b = a := by
  intro s b rest _ h
  cases h
  exact ⟨[], rfl, rfl, rfl⟩

theorem bind_after (hd : Reads n d P) (hf : ∀ w a, P w a → Reads (n - w.length) (f a) (Q a)) :
    Reads n (d >>= f) fun w b => ∃ a w₁ w₂, w = w₁ ++ w₂ ∧ P w₁ a ∧ Q a w₂ b := by
  intro s b rest hs h
  simp only [Bind.bind, StateT.bind, Except.bind] at h
  cases hrun : d s with
  | error e =>
    rw [hrun] at h
    cases h
  | ok x =>
    rw [hrun] at h
    obtain ⟨a, s'⟩ := x
    obtain ⟨w₁, rfl, hP⟩ := hd s a s' hs hrun
    rw [List.length_append] at hs
    obtain ⟨w₂, rfl, hQ⟩ := hf w₁ a hP s' b rest (by omega) h
    exact ⟨w₁ ++ w₂, (List.append_assoc ..).symm, a, w₁, w₂, rfl, hP, hQ⟩

theorem bind (hd : Reads n d P) (hf : ∀ a, Reads 0 (f a) (Q a)) :
    Reads n (d >>= f) fun w b => ∃ a w₁ w₂, w = w₁ ++ w₂ ∧ P w₁ a ∧ Q a w₂ b :=
  hd.bind_after fun _ a _ => (hf a).weaken (Nat.zero_le _)

theorem require {m : Nat} {g : Unit → Decoder β} {R : List UInt8 → β → Prop} (hg : Reads m (g ()) R) :
    Reads n (Decoder.require m msg >>= g) R := by
  intro s b rest _ h
  simp only [Bind.bind, StateT.bind, Except.bind, Decoder.require] at h
  by_cases hlen : s.length < m
  · rw [if_pos hlen] at h
    cases h
  · rw [if_neg hlen] at h
    exact hg s b rest (Nat.not_lt.mp hlen) h

theorem throwIf {c : Prop} [Decidable c] {g : Unit → Decoder β} {R : List UInt8 → β → Prop}
    (hg : ¬ c → Reads n (g ()) R) :
    Reads n (Decoder.throwIf c msg >>= g) R := by
  intro s b rest hs h
  simp only [Bind.bind, StateT.bind, Except.bind, Decoder.throwIf] at h
  by_cases hc : c
  · rw [if_pos hc] at h
    cases h
  · rw [if_neg hc] at h
    exact hg hc s b rest hs h

theorem vec {g : List UInt8 → Decoder β} {R : List UInt8 → List UInt8 → β → Prop} (hk : k ≤ n)
    (hg : ∀ bytes, bytes.length = k → Reads (n - k) (g bytes) (R bytes)) :
    Reads n (Decoder.vec k >>= g) fun w b =>
      ∃ bytes w', bytes.length = k ∧ w = bytes ++ w' ∧ R bytes w' b := by
  intro s b rest hs h
  have htake : (s.take k).length = k := by rw [List.length_take]; omega
  obtain ⟨w', hw', hR⟩ := hg _ htake (s.drop k) b rest (by rw [List.length_drop]; omega) h
  refine ⟨s.take k ++ w', ?_, s.take k, w', htake, rfl, hR⟩
  rw [List.append_assoc, ← hw', List.take_append_drop]

theorem le32 {g : UInt32 → Decoder β} {R : UInt32 → List UInt8 → β → Prop} (hn : 4 ≤ n)
    (hg : ∀ v, Reads (n - 4) (g v) (R v)) :
    Reads n (Decoder.le32 >>= g) fun w b => ∃ v w', w = writeLE32 v ++ w' ∧ R v w' b := by
  intro s b rest hs h
  obtain ⟨w', hw', hR⟩ := hg _ (s.drop 4) b rest (by rw [List.length_drop]; omega) h
  refine ⟨writeLE32 (readLE32 s) ++ w', ?_, _, w', rfl, hR⟩
  rw [writeLE32_readLE32 (by omega), List.append_assoc, ← hw', List.take_append_drop]

theorem le64 {g : UInt64 → Decoder β} {R : UInt64 → List UInt8 → β → Prop} (hn : 8 ≤ n)
    (hg : ∀ v, Reads (n - 8) (g v) (R v)) :
    Reads n (Decoder.le64 >>= g) fun w b => ∃ v w', w = writeLE64 v ++ w' ∧ R v w' b := by
  intro s b rest hs h
  obtain ⟨w', hw', hR⟩ := hg _ (s.drop 8) b rest (by rw [List.length_drop]; omega) h
  refine ⟨writeLE64 (readLE64 s) ++ w', ?_, _, w', rfl, hR⟩
  rw [writeLE64_readLE64 (by omega), List.append_assoc, ← hw', List.take_append_drop]

theorem array {g : FixedBytes k → Decoder β} {R : FixedBytes k → List UInt8 → β → Prop}
    (hk : k ≤ n) (hg : ∀ v, Reads (n - k) (g v) (R v)) :
    Reads n (Decoder.array k >>= g) fun w b => ∃ v w', w = v.data ++ w' ∧ R v w' b := by
  intro s b rest hs h
  have hlen : k ≤ s.length := by omega
  simp only [Bind.bind, StateT.bind, Except.bind, Decoder.array, dif_pos hlen] at h
  obtain ⟨w', hw', hR⟩ := hg _ (s.drop k) b rest (by rw [List.length_drop]; omega) h
  refine ⟨s.take k ++ w', ?_, _, w', rfl, hR⟩
  rw [List.append_assoc, ← hw', List.take_append_drop]

theorem u8 {g : UInt8 → Decoder β} {R : UInt8 → List UInt8 → β → Prop}
    (hg : ∀ v, Reads (n - 1) (g v) (R v)) :
    Reads n (Decoder.u8 >>= g) fun w b => ∃ v w', w = v :: w' ∧ R v w' b := by
  intro s b rest hs h
  cases s with
  | nil => cases h
  | cons v s =>
    rw [List.length_cons] at hs
    obtain ⟨w', rfl, hR⟩ := hg v s b rest (by omega) h
    exact ⟨v :: w', rfl, v, w', rfl, hR⟩

theorem lift {e : Except String α} : Reads n (Decoder.lift e) fun w a => w = [] ∧ e = .ok a := by
  intro s a rest _ h
  cases e with
  | error msg => cases h
  | ok x =>
    cases h
    exact ⟨[], rfl, rfl, rfl⟩

/-- **A counted loop has read a part for each value.** -/
theorem replicate (hd : Reads 0 d P) : ∀ m, Reads 0 (Decoder.replicate d m) fun w as =>
    as.length = m ∧ ∃ ws : List (List UInt8), w = ws.flatten ∧ List.Forall₂ P ws as
  | 0 => (pure []).imp fun w as h => ⟨by rw [h.2]; rfl, [], h.1, h.2 ▸ .nil⟩
  | m + 1 => by
    refine (hd.bind fun a => (replicate hd m).bind fun as => pure (a :: as)).imp ?_
    rintro w as ⟨a, w₁, _, rfl, hP, as', w₂, _, rfl, ⟨hlen, ws, rfl, hall⟩, rfl, rfl⟩
    refine ⟨by rw [List.length_cons, hlen], w₁ :: ws, ?_, .cons hP hall⟩
    rw [List.append_nil, List.flatten_cons]

end Reads

end Decoder

end Moneu
