/-
# A wallet never issues a leaf twice

The life of one wallet file: signatures, saves that fail, processes that die, and everything a
process may do with the file in between.  The leaves of a transaction are marked in memory, the
map is written to the file, and only then is the transaction handed out; so a leaf that was handed
out is marked in the file, and in every wallet that was loaded from it (`Sound`).

A save that fails leaves more marks in memory than in the file.  `Load` throws these marks away,
which is harmless: no transaction was handed out for them.
-/
import Moneu.Wallet.Signing
import Moneu.Wallet.WalletFile

namespace Moneu

open NetParams

/-- The leaf indices in the proofs of a transaction; a coinbase is not authorised by proofs, and
nothing reads the ones it may carry. -/
def Transaction.provenLeaves (tx : Transaction) : List UInt32 :=
  if tx.isCoinbase then [] else tx.inputs.flatMap TxInput.provenLeaves

namespace WalletManager

/-! ## 1. The machine -/

/-- One wallet file, the process that works with it, and the leaves it has handed out so far. -/
structure Machine where
  wallet : WalletManager
  /-- The content of the wallet file, if there is one. -/
  file : Option (List UInt8)
  /-- A history variable: the leaves of each transaction for which `SignTransaction` returned
  true. -/
  issued : List (List UInt32)

/-- What can happen.  A process that dies anywhere but after the rename of `SignTransaction` leaves
the file as it was, so it is a `restart`. -/
inductive Event where
  /-- `SignTransaction`; `saves` says whether the wallet file can be written. -/
  | sign (tx : Transaction) (saves : Bool)
  /-- The process dies in `SignTransaction`, after the rename and before the return. -/
  | signDies (tx : Transaction)
  /-- `Load`; `opens` says whether the file can be opened. -/
  | load (passphrase : List UInt8) (opens : Bool)
  | unlock (passphrase : List UInt8)
  | lock
  /-- `LoadNoiseFile`; `found` says whether there is a noise file. -/
  | loadNoiseFile (passphrase : List UInt8) (found : Bool)
  /-- `GetChangeAddress`, which writes the wallet file if it can. -/
  | getChangeAddress (saves : Bool)
  | restart

namespace Machine

variable [WalletCrypto] (noise : List UInt8)

/-- A process starts with a wallet file. -/
def start (file : Option (List UInt8)) : Machine := { wallet := fresh, file, issued := [] }

/-- The wallet file after `SignTransaction` has come to the point `stage`. -/
def fileAfter (m : Machine) (w : WalletManager) (saves : Bool) : SignStage → Option (List UInt8)
  | .saving => if saves then some w.saveBytes else m.file
  | .ended _ => m.file

/-- The leaves handed out with what `SignTransaction` returned. -/
def issuedAfter (m : Machine) (tx : Transaction) : Outcome Bool → List (List UInt32)
  | .ret true => m.issued ++ [tx.provenLeaves]
  | _ => m.issued

def step (m : Machine) : Event → Machine
  | .sign tx saves =>
    let (w, signed, outcome) := m.wallet.signTransaction tx saves
    { wallet := w
      file := m.fileAfter w saves (m.wallet.signStage tx).2.2
      issued := m.issuedAfter signed outcome }
  | .signDies tx =>
    { m with
      wallet := fresh
      file := m.fileAfter (m.wallet.signStage tx).1 true (m.wallet.signStage tx).2.2 }
  | .load passphrase opens =>
    { m with wallet := (m.wallet.load (if opens then m.file else none) passphrase).1 }
  | .unlock passphrase => { m with wallet := (m.wallet.unlock passphrase).1 }
  | .lock => { m with wallet := m.wallet.lock }
  | .loadNoiseFile passphrase found =>
    { m with wallet := (m.wallet.loadNoiseFile (if found then some noise else none) passphrase).1 }
  | .getChangeAddress saves =>
    match m.wallet.getChangeAddress with
    | .error _ => m
    | .ok (w, _) => { m with wallet := w, file := if saves then some w.saveBytes else m.file }
  | .restart => { m with wallet := fresh }

def run (m : Machine) (events : List Event) : Machine := events.foldl (step noise) m

end Machine

/-! ## 2. The invariant -/

open Machine

/-- The wallet's map marks every leaf of `leaves`. -/
def Marks (w : WalletManager) (leaves : List UInt32) : Prop :=
  ∀ i ∈ leaves, w.isNoiseLeafUsed i = true

/-- **The invariant.**  What was handed out is marked in the file, and in the wallet as soon as one
is loaded; and no leaf was handed out twice. -/
structure Sound (m : Machine) : Prop where
  saveable : Saveable m.wallet
  seeded : m.wallet.unlockedSeed ≠ none → m.wallet.initialized = true
  marked : m.wallet.initialized = true → m.wallet.Marks m.issued.flatten
  kept : m.issued.flatten ≠ [] →
    ∃ saved, Saveable saved ∧ m.file = some saved.saveBytes ∧ saved.Marks m.issued.flatten
  nodup : m.issued.flatten.Nodup

theorem sound_start (file : Option (List UInt8)) : Sound (start file) where
  saveable := saveable_fresh
  seeded h := absurd rfl h
  marked h := absurd h Bool.false_ne_true
  kept h := absurd rfl h
  nodup := List.nodup_nil

section Steps

variable {m : Machine}

/-- **The wallet is exchanged** for one that knows the same. -/
theorem Sound.replace (h : Sound m) {w : WalletManager} (hsave : Saveable w)
    (hseed : w.unlockedSeed ≠ none → w.initialized = true)
    (hmarks : w.initialized = true → w.Marks m.issued.flatten) : Sound { m with wallet := w } :=
  ⟨hsave, hseed, hmarks, h.kept, h.nodup⟩

theorem Sound.restart (h : Sound m) : Sound { m with wallet := fresh } :=
  h.replace saveable_fresh (fun hseed => absurd rfl hseed) fun hinit => absurd hinit Bool.false_ne_true

theorem Sound.save (h : Sound m) (hinit : m.wallet.initialized = true) :
    Sound { m with file := some m.wallet.saveBytes } :=
  { h with kept := fun _ => ⟨m.wallet, h.saveable, rfl, h.marked hinit⟩ }

theorem Sound.held (h : Sound m) (held : AList fun _ : OutPoint => Bytes32) :
    Sound { m with wallet := { m.wallet with heldOutpoints := held } } := by
  obtain ⟨hentropy, haddresses, hlabels, hmap⟩ := h.saveable
  exact h.replace ⟨hentropy, haddresses, hlabels, hmap⟩ h.seeded h.marked

theorem Sound.lock (h : Sound m) : Sound { m with wallet := m.wallet.lock } := by
  obtain ⟨hentropy, haddresses, hlabels, hmap⟩ := h.saveable
  exact h.replace ⟨hentropy, haddresses, hlabels, hmap⟩ (fun hne => absurd rfl hne) h.marked

end Steps

/-! ## 3. Marking leaves -/

theorem isNoiseLeafUsed_mark (w : WalletManager) {i : UInt32} (hi : i < NOISE_LEAF_COUNT)
    (j : UInt32) :
    (w.markNoiseLeafUsed i).isNoiseLeafUsed j = true ↔ w.isNoiseLeafUsed j = true ∨ j = i := by
  have hlen : mapBytes ≤ (UsedMap.grow w.noiseUsed mapBytes).length := by
    rw [UsedMap.grow, List.length_append, List.length_replicate]
    omega
  have hlt : i.toNat / 8 < (UsedMap.grow w.noiseUsed mapBytes).length := by
    have hword : i.toNat < 1048576 := UInt32.lt_iff_toNat_lt.mp hi
    have hbytes : mapBytes = 131072 := by decide
    omega
  have hgrow : UsedMap.isUsed (UsedMap.grow w.noiseUsed mapBytes) j = UsedMap.isUsed w.noiseUsed j :=
    UsedMap.isUsed_congr (UsedMap.getD_grow _ _) j
  rw [isNoiseLeafUsed, markNoiseLeafUsed]
  simp only [if_pos hlt]
  rw [UsedMap.isUsed_setBit hlt, hgrow, isNoiseLeafUsed, @eq_comm _ i]

theorem length_markNoiseLeafUsed {w : WalletManager} (h : w.noiseUsed.length ≤ mapBytes) (i : UInt32) :
    (w.markNoiseLeafUsed i).noiseUsed.length ≤ mapBytes := by
  have hlen : (UsedMap.grow w.noiseUsed mapBytes).length ≤ mapBytes := by
    rw [UsedMap.grow, List.length_append, List.length_replicate]
    omega
  unfold markNoiseLeafUsed
  dsimp only
  split
  · rwa [UsedMap.length_setBit]
  · exact hlen

theorem saveable_mark {w : WalletManager} (h : Saveable w) (i : UInt32) :
    Saveable (w.markNoiseLeafUsed i) :=
  ⟨h.entropy_lt, h.addresses_lt, h.labels_lt, length_markNoiseLeafUsed h.map_le i⟩

/-- Marking leaves keeps what else the invariant speaks of. -/
structure Marked (w w' : WalletManager) (leaves : List UInt32) : Prop where
  saveable : Saveable w → Saveable w'
  keys : SameKeys w w'
  used : ∀ j, w'.isNoiseLeafUsed j = true ↔ w.isNoiseLeafUsed j = true ∨ j ∈ leaves

theorem marked_foldl : ∀ (leaves : List UInt32) (w : WalletManager),
    (∀ i ∈ leaves, i < NOISE_LEAF_COUNT) → Marked w (leaves.foldl markNoiseLeafUsed w) leaves
  | [], w, _ => ⟨id, ⟨rfl, rfl⟩, fun j => by simp⟩
  | i :: leaves, w, hrange => by
    obtain ⟨hi, hrest⟩ := List.forall_mem_cons.mp hrange
    obtain ⟨hsave, hkeys, hused⟩ := marked_foldl leaves (w.markNoiseLeafUsed i) hrest
    refine ⟨?_, ⟨hkeys.initialized, hkeys.unlockedSeed⟩, ?_⟩
    · intro hw
      exact hsave (saveable_mark hw i)
    · intro j
      rw [List.foldl_cons, hused, isNoiseLeafUsed_mark w hi, List.mem_cons, or_assoc]

section Consuming

variable {m : Machine}

/-- **Leaves are consumed**: marked in memory, not yet handed out. -/
theorem Sound.consume (h : Sound m) (nf : NoiseFile) {leaves : List UInt32}
    (hrange : ∀ i ∈ leaves, i < NOISE_LEAF_COUNT) :
    Sound { m with wallet := m.wallet.consume nf leaves } ∧ (m.wallet.consume nf leaves).Marks leaves := by
  obtain ⟨hsave, hkeys, hused⟩ := marked_foldl leaves m.wallet hrange
  obtain ⟨hentropy, haddresses, hlabels, hmap⟩ := hsave h.saveable
  refine ⟨h.replace ⟨hentropy, haddresses, hlabels, hmap⟩ ?_ ?_, ?_⟩
  · intro hne
    exact hkeys.initialized.trans (h.seeded (hkeys.unlockedSeed ▸ hne))
  · intro hloaded i hi
    exact (hused i).mpr (.inl (h.marked (hkeys.initialized.symm.trans hloaded) i hi))
  · intro i hi
    exact (hused i).mpr (.inr hi)

/-- **Leaves are handed out**: they were free before, and are marked in memory and in the file. -/
theorem Sound.issue (h : Sound m) (hinit : m.wallet.initialized = true) {leaves : List UInt32}
    (hnodup : leaves.Nodup) (hfree : ∀ i ∈ m.issued.flatten, i ∉ leaves)
    (hmarks : m.wallet.Marks leaves) :
    Sound { m with file := some m.wallet.saveBytes, issued := m.issued ++ [leaves] } := by
  have hflat : (m.issued ++ [leaves]).flatten = m.issued.flatten ++ leaves := by simp
  have hall : m.wallet.Marks (m.issued ++ [leaves]).flatten := by
    rw [hflat]
    intro i hi
    rcases List.mem_append.mp hi with hi | hi
    · exact h.marked hinit i hi
    · exact hmarks i hi
  refine ⟨h.saveable, h.seeded, fun _ => hall, fun _ => ⟨m.wallet, h.saveable, rfl, hall⟩, ?_⟩
  change (m.issued ++ [leaves]).flatten.Nodup
  rw [hflat]
  exact h.nodup.append hnodup hfree

end Consuming

/-! ## 4. The events -/

section Events

variable [WalletCrypto] {m : Machine}

theorem load_cases (w : WalletManager) (bytes passphrase : List UInt8) :
    match loadFromFile { rest := bytes, good := true, wallet := w } with
    | .error _ s => (w.load (some bytes) passphrase).1 = s.wallet
    | .ok _ s => (w.load (some bytes) passphrase).1 = s.wallet ∨
        (w.load (some bytes) passphrase).1 = { s.wallet with locked := false, initialized := true } := by
  unfold load
  dsimp only
  cases loadFromFile { rest := bytes, good := true, wallet := w } with
  | error what s => rfl
  | ok _ s =>
    dsimp only
    cases s.wallet.openSeed passphrase with
    | threw what => exact .inl rfl
    | ret seed =>
      cases seed with
      | none => exact .inl rfl
      | some seed => exact .inr rfl

theorem load_any {w : WalletManager} (h : Saveable w) (bytes passphrase : List UInt8) :
    Saveable (w.load (some bytes) passphrase).1 ∧
      (w.load (some bytes) passphrase).1.unlockedSeed = w.unlockedSeed ∧
      (w.initialized = true → (w.load (some bytes) passphrase).1.initialized = true) := by
  have hpass := (@passing_loadFromFile w).run
    (⟨h, ⟨rfl, rfl⟩, h.addresses_lt⟩ : Passing w 0 { rest := bytes, good := true, wallet := w })
  have hload := load_cases w bytes passphrase
  cases hrun : loadFromFile { rest := bytes, good := true, wallet := w } with
  | error what s =>
    rw [hrun] at hpass hload
    dsimp only at hpass hload
    rw [hload]
    exact ⟨hpass.saveable, hpass.keys.unlockedSeed, fun hi => hpass.keys.initialized.trans hi⟩
  | ok _ s =>
    rw [hrun] at hpass hload
    dsimp only at hpass hload
    rcases hload with hload | hload
    · rw [hload]
      exact ⟨hpass.saveable, hpass.keys.unlockedSeed, fun hi => hpass.keys.initialized.trans hi⟩
    · rw [hload]
      obtain ⟨hentropy, haddresses, hlabels, hmap⟩ := hpass.saveable
      exact ⟨⟨hentropy, haddresses, hlabels, hmap⟩, hpass.keys.unlockedSeed, fun _ => rfl⟩

/-- **`Load`, of a file that was saved**, brings back the marks of that file or changes neither the
map nor the flag that a wallet was loaded. -/
theorem load_saved {w saved : WalletManager} (hsaved : Saveable saved) (hw : Saveable w)
    (passphrase : List UInt8) :
    (∀ i, (w.load (some saved.saveBytes) passphrase).1.isNoiseLeafUsed i = saved.isNoiseLeafUsed i) ∨
      (w.load (some saved.saveBytes) passphrase).1.noiseUsed = w.noiseUsed ∧
        (w.load (some saved.saveBytes) passphrase).1.initialized = w.initialized := by
  have hmap := (loadFromFile_saveBytes hsaved w).run (rfl : before saved.saveBytes w = _)
  have hpass := (@passing_loadFromFile w).run
    (⟨hw, ⟨rfl, rfl⟩, hw.addresses_lt⟩ : Passing w 0 (before saved.saveBytes w))
  have hload := load_cases w saved.saveBytes passphrase
  change match loadFromFile (before saved.saveBytes w) with | .error _ s => _ | .ok _ s => _ at hload
  cases hrun : loadFromFile (before saved.saveBytes w) with
  | error what s =>
    rw [hrun] at hmap hpass hload
    dsimp only at hmap hpass hload
    rw [hload]
    exact .inr ⟨hmap.2, hpass.keys.initialized⟩
  | ok _ s =>
    rw [hrun] at hmap hload
    dsimp only at hmap hload
    refine .inl fun i => ?_
    rcases hload with hload | hload
    · rw [hload]
      exact UsedMap.isUsed_congr hmap.2.noiseUsed i
    · rw [hload]
      exact UsedMap.isUsed_congr hmap.2.noiseUsed i

theorem Sound.load (h : Sound m) (passphrase : List UInt8) (opens : Bool) :
    Sound { m with wallet := (m.wallet.load (if opens then m.file else none) passphrase).1 } := by
  cases hfile : (if opens then m.file else none) with
  | none => exact h
  | some bytes =>
    obtain ⟨hsave, hseed, hinit⟩ := load_any h.saveable bytes passphrase
    refine h.replace hsave ?_ ?_
    · intro hne
      exact hinit (h.seeded (hseed ▸ hne))
    · intro hloaded i hi
      obtain ⟨saved, hsaved, hkept, hmarks⟩ := h.kept (List.ne_nil_of_mem hi)
      have hbytes : bytes = saved.saveBytes := by
        cases opens with
        | false => cases hfile
        | true => exact Option.some.inj (hfile.symm.trans hkept)
      subst hbytes
      rcases load_saved hsaved h.saveable passphrase with hused | ⟨hmap, hsame⟩
      · rw [hused i]
        exact hmarks i hi
      · rw [isNoiseLeafUsed, hmap]
        exact h.marked (hsame ▸ hloaded) i hi

theorem Sound.unlock (h : Sound m) (passphrase : List UInt8) :
    Sound { m with wallet := (m.wallet.unlock passphrase).1 } := by
  unfold WalletManager.unlock
  split
  case isTrue => exact h
  case isFalse hinit =>
    split
    case h_1 => exact h
    case h_2 => exact h
    case h_3 seed _ =>
      have hloaded : m.wallet.initialized = true := by simpa using hinit
      obtain ⟨hentropy, haddresses, hlabels, hmap⟩ := h.saveable
      exact h.replace ⟨hentropy, haddresses, hlabels, hmap⟩ (fun _ => hloaded) h.marked

theorem Sound.loadNoiseFile (h : Sound m) (file : Option (List UInt8)) (passphrase : List UInt8) :
    Sound { m with wallet := (m.wallet.loadNoiseFile file passphrase).1 } := by
  obtain ⟨hentropy, haddresses, hlabels, hmap⟩ := h.saveable
  unfold WalletManager.loadNoiseFile
  split
  case h_1 => exact h
  case h_2 =>
    split
    case h_1 => exact h
    case h_2 =>
      split
      case isTrue => exact h
      case isFalse =>
        split
        case h_1 => exact h
        case h_2 => exact h.replace ⟨hentropy, haddresses, hlabels, hmap⟩ h.seeded h.marked

omit [WalletCrypto] in
theorem change_label_lt : "change".toUTF8.toList.length < 2 ^ 32 := by decide +kernel

theorem Sound.getChangeAddress (h : Sound m) {w : WalletManager} {addr : WalletAddress}
    (hchange : m.wallet.getChangeAddress = .ok (w, addr)) :
    Sound { m with wallet := w } ∧ w.initialized = true := by
  unfold WalletManager.getChangeAddress at hchange
  split at hchange
  case isTrue => cases hchange
  case isFalse hroom =>
    split at hchange
    case h_2 => cases hchange
    case h_1 seed _ hseed =>
      split at hchange
      case isTrue => cases hchange
      case isFalse =>
        cases hchange
        have hloaded : m.wallet.initialized = true := h.seeded (by rw [hseed]; simp)
        refine ⟨h.replace ⟨h.saveable.entropy_lt, ?_, ?_, h.saveable.map_le⟩ (fun _ => hloaded)
          h.marked, hloaded⟩
        · have hmax : MAX_ADDRESSES = 1000000 := rfl
          rw [List.length_append, List.length_singleton]
          omega
        · intro a ha
          rcases List.mem_append.mp ha with ha | ha
          · exact h.saveable.labels_lt a ha
          · rw [List.mem_singleton] at ha
            subst ha
            exact change_label_lt

/-- **One event keeps the invariant**: the two events of `SignTransaction`. -/
theorem Sound.sign (noise : List UInt8) (h : Sound m) (tx : Transaction) (saves : Bool) :
    Sound (step noise m (.sign tx saves)) ∧ Sound (step noise m (.signDies tx)) := by
  have hstage := staged_signStage m.wallet tx
  dsimp only [step, signTransaction]
  generalize m.wallet.signStage tx = result at hstage
  cases hstage with
  | refused held signed outcome hout =>
    refine ⟨?_, h.restart⟩
    cases outcome with
    | threw what => exact h.held held
    | ret b =>
      cases b with
      | false => exact h.held held
      | true => exact absurd rfl hout
  | coinbase held seed signed _ hcoinbase =>
    refine ⟨?_, h.restart⟩
    have hnone : (m.issued ++ [signed.provenLeaves]).flatten = m.issued.flatten := by
      simp [Transaction.provenLeaves, hcoinbase]
    obtain ⟨hsave, hseeded, hmarked, hkept, hnodup⟩ := h.held held
    refine ⟨hsave, hseeded, ?_, ?_, ?_⟩
    all_goals simp only [issuedAfter, hnone]
    · exact hmarked
    · exact hkept
    · exact hnodup
  | proven held seed nf signed proven hseed hnf hsigned hinputs hout hnodup =>
    have hleaves := Proves.leaves hinputs
    have hinit : m.wallet.initialized = true := h.seeded (by rw [hseed]; simp)
    obtain ⟨hconsumed, hmarks⟩ := (h.held held).consume nf fun i hi => (hleaves i hi).1
    have hloaded : (({ m.wallet with heldOutpoints := held }).consume nf
        (proven.inputs.flatMap TxInput.provenLeaves)).initialized = true :=
      (marked_foldl _ { m.wallet with heldOutpoints := held }
        fun i hi => (hleaves i hi).1).keys.initialized.trans hinit
    refine ⟨?_, (hconsumed.save hloaded).restart⟩
    cases saves with
    | false => exact hconsumed
    | true =>
      -- what is handed out is all that was consumed, or nothing at all
      have hsub : proven.provenLeaves.Sublist (proven.inputs.flatMap TxInput.provenLeaves) := by
        unfold Transaction.provenLeaves
        split
        · exact List.nil_sublist _
        · exact List.Sublist.refl _
      refine hconsumed.issue hloaded (hnodup.sublist hsub) ?_ ?_
      · intro i hi hnew
        have hused := h.marked hinit i hi
        rw [(hleaves i (hsub.subset hnew)).2] at hused
        exact absurd hused Bool.false_ne_true
      · intro i hi
        exact hmarks i (hsub.subset hi)

theorem Sound.step (noise : List UInt8) (h : Sound m) (event : Event) :
    Sound (step noise m event) := by
  cases event with
  | sign tx saves => exact (h.sign noise tx saves).1
  | signDies tx => exact (h.sign noise tx true).2
  | load passphrase opens => exact h.load passphrase opens
  | unlock passphrase => exact h.unlock passphrase
  | lock => exact h.lock
  | loadNoiseFile passphrase found => exact h.loadNoiseFile _ passphrase
  | restart => exact h.restart
  | getChangeAddress saves =>
    cases hchange : m.wallet.getChangeAddress with
    | error what =>
      simp only [Machine.step, hchange]
      exact h
    | ok out =>
      obtain ⟨w, addr⟩ := out
      obtain ⟨hsound, hinit⟩ := h.getChangeAddress hchange
      simp only [Machine.step, hchange]
      cases saves with
      | false => exact hsound
      | true => exact hsound.save hinit

theorem sound_run (noise : List UInt8) (file : Option (List UInt8)) (events : List Event) :
    Sound (run noise (start file) events) := by
  refine List.foldlRecOn events (Machine.step noise) (sound_start file) ?_
  intro m hm event _
  exact hm.step noise event

/-- **A wallet never issues a leaf twice.**  Whatever the wallet file and the noise file hold at the
start, in every run the transactions for which `SignTransaction` returned true have pairwise
disjoint leaves, and each of them has distinct leaves. -/
theorem issued_disjoint (noise : List UInt8) (file : Option (List UInt8)) (events : List Event) :
    (run noise (start file) events).issued.Pairwise List.Disjoint ∧
      ∀ leaves ∈ (run noise (start file) events).issued, leaves.Nodup := by
  obtain ⟨heach, hpairs⟩ := List.nodup_flatten.mp (sound_run noise file events).nodup
  exact ⟨hpairs, heach⟩

end Events

end WalletManager

end Moneu
