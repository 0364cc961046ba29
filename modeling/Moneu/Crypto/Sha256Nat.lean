/-
# SHA-256 on natural numbers

The digest of `Moneu.Crypto.Sha256` again, with the schedule words and the eight registers as natural
numbers.  The kernel computes with natural numbers directly, so a digest of a CONCRETE message is found
this way, and `sha256_eq` carries it back to the function of the source.
-/
import Moneu.Crypto.Sha256

namespace Moneu

namespace Sha256

/-- The eight registers as numbers. -/
def State.toNats (s : State) : List Nat :=
  [s.a.toNat, s.b.toNat, s.c.toNat, s.d.toNat, s.e.toNat, s.f.toNat, s.g.toNat, s.h.toNat]

namespace Plain

/-! ## 1. One round -/

def low (x : Nat) : Nat := Nat.mod x 4294967296

theorem low_eq (x : Nat) : low x = x % 2 ^ 32 := rfl

def rotr (n x : Nat) : Nat := Nat.lor (Nat.shiftRight x n) (low (Nat.shiftLeft x (Nat.sub 32 n)))

def xor3 (x y z : Nat) : Nat := Nat.xor (Nat.xor x y) z

def t1 (e f g h k w : Nat) : Nat :=
  Nat.add (Nat.add (Nat.add (Nat.add h (xor3 (rotr 6 e) (rotr 11 e) (rotr 25 e)))
    (Nat.xor (Nat.land e f) (Nat.land (Nat.sub 4294967295 e) g))) k) w

def t2 (a b c : Nat) : Nat :=
  Nat.add (xor3 (rotr 2 a) (rotr 13 a) (rotr 22 a)) (xor3 (Nat.land a b) (Nat.land a c) (Nat.land b c))

def expand (w0 w1 w9 w14 : Nat) : Nat :=
  low (Nat.add w0 (Nat.add (Nat.add (xor3 (rotr 17 w14) (rotr 19 w14) (Nat.shiftRight w14 10)) w9)
    (xor3 (rotr 7 w1) (rotr 18 w1) (Nat.shiftRight w1 3))))

theorem toNat_rotr32 {n : Nat} (h : 0 < n ∧ n < 32) (x : UInt32) :
    (rotr32 (UInt32.ofNat n) x).toNat = rotr n x.toNat := by
  have hn : (UInt32.ofNat n).toNat = n := UInt32.toNat_ofNat_of_lt' (by simp only [UInt32.size]; omega)
  have hsub : (32 - UInt32.ofNat n).toNat = 32 - n := by
    rw [UInt32.toNat_sub_of_le _ _ (by rw [UInt32.le_iff_toNat_le, hn]; exact h.2.le), hn]
    rfl
  rw [rotr32, UInt32.toNat_or, UInt32.toNat_shiftRight, UInt32.toNat_shiftLeft, hsub, hn,
    Nat.mod_eq_of_lt h.2, Nat.mod_eq_of_lt (show 32 - n < 32 by omega)]
  rfl

theorem toNat_xor_rotr32 {i j k : Nat} (hi : 0 < i ∧ i < 32) (hj : 0 < j ∧ j < 32)
    (hk : 0 < k ∧ k < 32) (x : UInt32) :
    (rotr32 (UInt32.ofNat i) x ^^^ rotr32 (UInt32.ofNat j) x ^^^ rotr32 (UInt32.ofNat k) x).toNat =
      xor3 (rotr i x.toNat) (rotr j x.toNat) (rotr k x.toNat) := by
  rw [UInt32.toNat_xor, UInt32.toNat_xor, toNat_rotr32 hi, toNat_rotr32 hj, toNat_rotr32 hk]
  rfl

theorem toNat_xor_shiftRight {i j k : Nat} (hi : 0 < i ∧ i < 32) (hj : 0 < j ∧ j < 32)
    (hk : (UInt32.ofNat k).toNat % 32 = k) (x : UInt32) :
    (rotr32 (UInt32.ofNat i) x ^^^ rotr32 (UInt32.ofNat j) x ^^^ x >>> UInt32.ofNat k).toNat =
      xor3 (rotr i x.toNat) (rotr j x.toNat) (Nat.shiftRight x.toNat k) := by
  rw [UInt32.toNat_xor, UInt32.toNat_xor, toNat_rotr32 hi, toNat_rotr32 hj, UInt32.toNat_shiftRight, hk]
  rfl

theorem toNat_expand (w0 w1 w9 w14 : UInt32) :
    (w0 + (sigma1 w14 + w9 + sigma0 w1)).toNat = expand w0.toNat w1.toNat w9.toNat w14.toNat := by
  have h1 : (sigma0 w1).toNat = _ := toNat_xor_shiftRight (by decide) (by decide) (by decide) w1
  have h14 : (sigma1 w14).toNat = _ := toNat_xor_shiftRight (by decide) (by decide) (by decide) w14
  simp only [UInt32.toNat_add, h1, h14, expand, low_eq, Nat.add_eq]
  omega

theorem toNat_round (s : State) (k w : UInt32) : (round s k w).toNats =
    [low (Nat.add (t1 s.e.toNat s.f.toNat s.g.toNat s.h.toNat k.toNat w.toNat)
        (t2 s.a.toNat s.b.toNat s.c.toNat)), s.a.toNat, s.b.toNat, s.c.toNat,
      low (Nat.add s.d.toNat (t1 s.e.toNat s.f.toNat s.g.toNat s.h.toNat k.toNat w.toNat)),
      s.e.toNat, s.f.toNat, s.g.toNat] := by
  have h0 : (bigSigma0 s.a).toNat = _ := toNat_xor_rotr32 (by decide) (by decide) (by decide) s.a
  have h1 : (bigSigma1 s.e).toNat = _ := toNat_xor_rotr32 (by decide) (by decide) (by decide) s.e
  have hch : (ch s.e s.f s.g).toNat = Nat.xor (Nat.land s.e.toNat s.f.toNat)
      (Nat.land (Nat.sub 4294967295 s.e.toNat) s.g.toNat) := by
    rw [ch, UInt32.toNat_xor, UInt32.toNat_and, UInt32.toNat_and, UInt32.toNat_not]
    rfl
  have hmaj : (maj s.a s.b s.c).toNat = xor3 (Nat.land s.a.toNat s.b.toNat)
      (Nat.land s.a.toNat s.c.toNat) (Nat.land s.b.toNat s.c.toNat) := by
    rw [maj, UInt32.toNat_xor, UInt32.toNat_xor, UInt32.toNat_and, UInt32.toNat_and, UInt32.toNat_and]
    rfl
  simp only [State.toNats, round, UInt32.toNat_add, h0, h1, hch, hmaj, t1, t2, low_eq, Nat.add_eq,
    List.cons.injEq, and_true, true_and]
  constructor <;> omega

/-! ## 2. The digest -/

/-- `f n`, with `n` a numeral by the time `f` sees it. -/
def force (n : Nat) (f : Nat → List Nat) : List Nat := Nat.rec (f 0) (fun m _ => f m.succ) n

theorem force_eq (n : Nat) (f : Nat → List Nat) : force n f = f n := by
  cases n <;> rfl

def rounds : List Nat → (w0 w1 w2 w3 w4 w5 w6 w7 w8 w9 w10 w11 w12 w13 w14 w15 : Nat) →
    (a b c d e f g h : Nat) → List Nat
  | [], _, _, _, _, _, _, _, _, _, _, _, _, _, _, _, _, a, b, c, d, e, f, g, h => [a, b, c, d, e, f, g, h]
  | k :: ks, w0, w1, w2, w3, w4, w5, w6, w7, w8, w9, w10, w11, w12, w13, w14, w15,
      a, b, c, d, e, f, g, h =>
    force (expand w0 w1 w9 w14) fun w16 =>
    force (low (Nat.add (t1 e f g h k w0) (t2 a b c))) fun a' =>
    force (low (Nat.add d (t1 e f g h k w0))) fun e' =>
    rounds ks w1 w2 w3 w4 w5 w6 w7 w8 w9 w10 w11 w12 w13 w14 w15 w16 a' a b c e' e f g

def transform : List Nat → List Nat → List Nat
  | [a, b, c, d, e, f, g, h],
      [w0, w1, w2, w3, w4, w5, w6, w7, w8, w9, w10, w11, w12, w13, w14, w15] =>
    List.zipWith (fun x y => low (Nat.add x y)) [a, b, c, d, e, f, g, h]
      (rounds (K256.map UInt32.toNat) w0 w1 w2 w3 w4 w5 w6 w7 w8 w9 w10 w11 w12 w13 w14 w15
        a b c d e f g h)
  | s, _ => s

def blocks : Nat → List Nat → List Nat → List Nat
  | 0, _, s => s
  | n + 1, ws, s => blocks n (ws.drop 16) (transform s (ws.take 16))

def digest (msg : List UInt8) : List UInt8 :=
  let padded := msg ++ padding msg.length
  (blocks (padded.length / 64) ((words padded).map UInt32.toNat) initialHashValue.toNats).flatMap
    (FixedBytes.beDigits 4)

theorem rounds_toNat (ks : List UInt32)
    (w0 w1 w2 w3 w4 w5 w6 w7 w8 w9 w10 w11 w12 w13 w14 w15 : UInt32) (s : State) :
    rounds (ks.map UInt32.toNat) w0.toNat w1.toNat w2.toNat w3.toNat w4.toNat w5.toNat w6.toNat w7.toNat
      w8.toNat w9.toNat w10.toNat w11.toNat w12.toNat w13.toNat w14.toNat w15.toNat
      s.a.toNat s.b.toNat s.c.toNat s.d.toNat s.e.toNat s.f.toNat s.g.toNat s.h.toNat =
    (Sha256.rounds ks [w0, w1, w2, w3, w4, w5, w6, w7, w8, w9, w10, w11, w12, w13, w14, w15] s).toNats := by
  induction ks generalizing w0 w1 w2 w3 w4 w5 w6 w7 w8 w9 w10 w11 w12 w13 w14 w15 s with
  | nil => rfl
  | cons k ks ih =>
    have hround := toNat_round s k w0
    simp only [State.toNats, List.cons.injEq, and_true] at hround
    obtain ⟨ha, -, -, -, he, -⟩ := hround
    rw [List.map_cons, rounds, force_eq, force_eq, force_eq, ← toNat_expand, ← ha, ← he]
    exact ih w1 w2 w3 w4 w5 w6 w7 w8 w9 w10 w11 w12 w13 w14 w15 _ (round s k w0)

theorem transform_toNat (s : State) {ws : List UInt32} (h : ws.length = 16) :
    transform s.toNats (ws.map UInt32.toNat) = (Sha256.transform s ws).toNats := by
  match ws, h with
  | [w0, w1, w2, w3, w4, w5, w6, w7, w8, w9, w10, w11, w12, w13, w14, w15], _ =>
    simp only [State.toNats, List.map_cons, List.map_nil, transform, rounds_toNat]
    simp only [List.zipWith_cons_cons, List.zipWith_nil_left, Sha256.transform, UInt32.toNat_add, low_eq,
      Nat.add_eq]

theorem blocks_toNat (n : Nat) (ws : List UInt32) (s : State) (h : ws.length = 16 * n) :
    blocks n (ws.map UInt32.toNat) s.toNats = (Sha256.blocks n ws s).toNats := by
  induction n generalizing ws s with
  | zero => rfl
  | succ n ih =>
    rw [blocks, Sha256.blocks, ← List.map_take, transform_toNat s (by simp; omega), ← List.map_drop]
    exact ih _ _ (by simp; omega)

theorem digest_eq (msg : List UInt8) : digest msg = (sha256 msg).data := by
  have hlen : (msg ++ padding msg.length).length = 64 * ((msg ++ padding msg.length).length / 64) := by
    simp [padding, FixedBytes.length_beDigits]
    omega
  have hwords := length_words (n := 16 * ((msg ++ padding msg.length).length / 64))
    (msg ++ padding msg.length) (by omega)
  rw [digest, blocks_toNat _ _ _ hwords]
  simp [sha256, State.digest, State.toNats]

end Plain

end Sha256

/-- The digest, found with natural numbers. -/
def fastSha256 (msg : List UInt8) : Bytes32 :=
  ⟨Sha256.Plain.digest msg, by rw [Sha256.Plain.digest_eq, FixedBytes.length_data]⟩

theorem sha256_eq (msg : List UInt8) : sha256 msg = fastSha256 msg :=
  FixedBytes.ext (Sha256.Plain.digest_eq msg).symm

end Moneu
