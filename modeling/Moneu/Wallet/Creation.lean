/-
# A new wallet over an old one

One data directory over the lifetimes of several processes: `createwallet`, loads that fail or
succeed, and a noise file that comes and goes.

`Create` never looks for the wallet file.  It is kept from writing over one by two other things:
that a wallet is loaded in this process, or that there is a noise file.  A wallet that was created,
but never got a noise file, has neither after the next start.

* `kept_iff`: in every run, all calls keep the file that is there if and only if each call that
  would come to `SaveToFile` finds a loaded wallet, a noise file, or no wallet file (`Guarded`);
  and a run of guarded calls ends with the file it began with;
* `overwritten`: `createwallet`, a new start, `createwallet`.
-/
import Moneu.Wallet.FileRoundTrip

namespace Moneu

namespace WalletManager

/-! ## 1. The directory -/

/-- The files of a data directory that matter here, and the process that works with them. -/
structure WalletDir where
  wallet : WalletManager
  /-- The content of the wallet file, if there is one. -/
  file : Option (List UInt8)
  hasNoise : Bool

/-- What can happen. -/
inductive DirEvent where
  /-- A new process. -/
  | start
  /-- `createwallet`; `saves` says whether the wallet file can be written. -/
  | createwallet (passphrase : List UInt8) (r : Randomness) (saves : Bool)
  /-- `Load`; `opens` says whether the file can be opened. -/
  | load (passphrase : List UInt8) (opens : Bool)
  /-- The noise file is added or removed. -/
  | setNoise (hasNoise : Bool)

/-- **`Create`** comes to `SaveToFile` exactly if nothing stops it and its four ingredients are
there. -/
theorem createStage_ok_iff [WalletCrypto] (w : WalletManager) (hasNoise : Bool)
    (passphrase : List UInt8) (r : Randomness) :
    (∃ mnemonic, (w.createStage hasNoise passphrase r).2 = .ok mnemonic) ↔
      w.initialized = false ∧ hasNoise = false ∧
        (WalletCrypto.mnemonicFromData r.entropy.data).isSome ∧
        (WalletCrypto.entropyToSeed r.entropy.data).isSome ∧
        (WalletCrypto.encrypt passphrase r.salt.data r.iv.data r.entropy.data).isSome := by
  unfold createStage
  cases w.initialized with
  | true => simp
  | false =>
    cases hasNoise with
    | true => simp
    | false =>
      cases WalletCrypto.mnemonicFromData r.entropy.data with
      | none => simp
      | some mnemonic =>
        cases WalletCrypto.entropyToSeed r.entropy.data with
        | none => simp
        | some seed =>
          cases WalletCrypto.encrypt passphrase r.salt.data r.iv.data r.entropy.data with
          | none => simp
          | some out => simp

namespace WalletDir

section Runs

variable [WalletCrypto]

def createwallet (d : WalletDir) (passphrase : List UInt8) (r : Randomness) (saves : Bool) :
    WalletDir × Outcome (List UInt8) :=
  if d.wallet.initialized then (d, .threw "Wallet already exists. Use loadwallet.")
  else if passphrase.length < 8 then (d, .threw "Passphrase must be at least 8 characters")
  else
    match d.wallet.create d.hasNoise passphrase r saves with
    | (w, .threw what) => ({ d with wallet := w }, .threw ("Wallet create failed: " ++ what))
    | (w, .ret mnemonic) => ({ d with wallet := w, file := some w.saveBytes }, .ret mnemonic)

def step (d : WalletDir) : DirEvent → WalletDir
  | .start => { d with wallet := fresh }
  | .createwallet passphrase r saves => (d.createwallet passphrase r saves).1
  | .load passphrase opens =>
    { d with wallet := (d.wallet.load (if opens then d.file else none) passphrase).1 }
  | .setNoise hasNoise => { d with hasNoise }

def run (d : WalletDir) (events : List DirEvent) : WalletDir := events.foldl step d

/-! ## 2. One call -/

/-- A call keeps the wallet file: if there is one, the call fails and leaves it as it is. -/
def Keeps (d : WalletDir) : DirEvent → Prop
  | .createwallet passphrase r saves => ∀ bytes, d.file = some bytes →
      (∃ what, (d.createwallet passphrase r saves).2 = .threw what) ∧
        (d.createwallet passphrase r saves).1.file = some bytes
  | _ => True

/-- What a request needs to come to an end, besides the state of the directory. -/
def Completes (passphrase : List UInt8) (r : Randomness) (saves : Bool) : Prop :=
  8 ≤ passphrase.length ∧ (WalletCrypto.mnemonicFromData r.entropy.data).isSome ∧
    (WalletCrypto.entropyToSeed r.entropy.data).isSome ∧
    (WalletCrypto.encrypt passphrase r.salt.data r.iv.data r.entropy.data).isSome ∧ saves = true

/-- A call that finds something to stop it, or nothing to destroy. -/
def Guarded (d : WalletDir) : DirEvent → Prop
  | .createwallet passphrase r saves => Completes passphrase r saves →
      d.wallet.initialized = true ∨ d.hasNoise = true ∨ d.file = none
  | _ => True

/-- Nothing stops a call that can complete. -/
def Unguarded (d : WalletDir) (passphrase : List UInt8) (r : Randomness) (saves : Bool) : Prop :=
  Completes passphrase r saves ∧ d.wallet.initialized = false ∧ d.hasNoise = false

/-- **`createwallet`** returns if nothing stops it. -/
theorem createwallet_ret {d : WalletDir} {passphrase : List UInt8} {r : Randomness} {saves : Bool}
    (h : d.Unguarded passphrase r saves) :
    ∃ mnemonic, (d.createwallet passphrase r saves).2 = .ret mnemonic := by
  obtain ⟨⟨hlen, hmnemonic, hseed, hencrypt, rfl⟩, hinit, hnoise⟩ := h
  obtain ⟨mnemonic, hstage⟩ := (createStage_ok_iff d.wallet d.hasNoise passphrase r).mpr
    ⟨hinit, hnoise, hmnemonic, hseed, hencrypt⟩
  refine ⟨mnemonic, ?_⟩
  unfold createwallet create
  rw [if_neg (by simp [hinit]), if_neg (Nat.not_lt.mpr hlen)]
  generalize d.wallet.createStage d.hasNoise passphrase r = result at hstage
  obtain ⟨w, outcome⟩ := result
  obtain rfl : outcome = .ok mnemonic := hstage
  rfl

/-- **Otherwise it fails**, and the wallet file stays as it is. -/
theorem createwallet_threw {d : WalletDir} {passphrase : List UInt8} {r : Randomness} {saves : Bool}
    (h : ¬ d.Unguarded passphrase r saves) :
    (∃ what, (d.createwallet passphrase r saves).2 = .threw what) ∧
      (d.createwallet passphrase r saves).1.file = d.file := by
  have hstage := createStage_ok_iff d.wallet d.hasNoise passphrase r
  unfold createwallet create
  split
  case isTrue => exact ⟨⟨_, rfl⟩, rfl⟩
  case isFalse hinit =>
    split
    case isTrue => exact ⟨⟨_, rfl⟩, rfl⟩
    case isFalse hlen =>
      generalize d.wallet.createStage d.hasNoise passphrase r = result at hstage
      obtain ⟨w, outcome⟩ := result
      cases outcome with
      | error what => exact ⟨⟨_, rfl⟩, rfl⟩
      | ok mnemonic =>
        cases saves with
        | false => exact ⟨⟨_, rfl⟩, rfl⟩
        | true =>
          obtain ⟨hnew, hnoise, hmnemonic, hseed, hencrypt⟩ := hstage.mp ⟨mnemonic, rfl⟩
          exact absurd ⟨⟨Nat.not_lt.mp hlen, hmnemonic, hseed, hencrypt, rfl⟩, hnew, hnoise⟩ h

theorem keeps_iff (d : WalletDir) (event : DirEvent) : d.Keeps event ↔ d.Guarded event := by
  cases event with
  | start => exact Iff.rfl
  | load passphrase opens => exact Iff.rfl
  | setNoise hasNoise => exact Iff.rfl
  | createwallet passphrase r saves =>
    by_cases hopen : d.Unguarded passphrase r saves
    · obtain ⟨mnemonic, hret⟩ := createwallet_ret hopen
      obtain ⟨hcompletes, hinit, hnoise⟩ := hopen
      constructor
      · intro hkeeps _
        refine .inr (.inr ?_)
        cases hfile : d.file with
        | none => rfl
        | some bytes =>
          obtain ⟨⟨what, hthrew⟩, _⟩ := hkeeps bytes hfile
          rw [hret] at hthrew
          cases hthrew
      · intro hguarded bytes hfile
        rcases hguarded hcompletes with hguard | hguard | hguard
        · rw [hinit] at hguard
          cases hguard
        · rw [hnoise] at hguard
          cases hguard
        · rw [hguard] at hfile
          cases hfile
    · obtain ⟨hthrew, hsame⟩ := createwallet_threw hopen
      constructor
      · intro _ hcompletes
        cases hinit : d.wallet.initialized with
        | true => exact .inl rfl
        | false =>
          cases hnoise : d.hasNoise with
          | true => exact .inr (.inl rfl)
          | false => exact absurd ⟨hcompletes, hinit, hnoise⟩ hopen
      · intro _ bytes hfile
        exact ⟨hthrew, hsame.trans hfile⟩

/-! ## 3. Whole runs -/

/-- A condition holds at every event of a run, in the state before the event. -/
def Along (P : WalletDir → DirEvent → Prop) : WalletDir → List DirEvent → Prop
  | _, [] => True
  | d, event :: events => P d event ∧ Along P (d.step event) events

theorem along_congr {P Q : WalletDir → DirEvent → Prop} (h : ∀ d event, P d event ↔ Q d event) :
    ∀ (events : List DirEvent) (d : WalletDir), Along P d events ↔ Along Q d events
  | [], _ => Iff.rfl
  | event :: events, d => and_congr (h d event) (along_congr h events (d.step event))

theorem file_step {d : WalletDir} {event : DirEvent} {bytes : List UInt8} (h : d.Keeps event)
    (hfile : d.file = some bytes) : (d.step event).file = some bytes := by
  cases event with
  | start => exact hfile
  | load passphrase opens => exact hfile
  | setNoise hasNoise => exact hfile
  | createwallet passphrase r saves => exact (h bytes hfile).2

theorem file_run {bytes : List UInt8} : ∀ (events : List DirEvent) (d : WalletDir),
    Along Keeps d events → d.file = some bytes → (d.run events).file = some bytes
  | [], _, _, hfile => hfile
  | event :: events, d, hkeeps, hfile =>
    file_run events (d.step event) hkeeps.2 (file_step hkeeps.1 hfile)

/-- **When no wallet is written over.**  In every run every `createwallet` keeps the wallet file
that is there if and only if each one that can complete finds a loaded wallet, a noise file or no
wallet file; and then a wallet file that is there at the start is there at the end, byte by byte. -/
theorem kept_iff (d : WalletDir) (events : List DirEvent) :
    (Along Keeps d events ↔ Along Guarded d events) ∧
      (Along Guarded d events → ∀ bytes, d.file = some bytes → (d.run events).file = some bytes) := by
  have hiff := along_congr keeps_iff events d
  exact ⟨hiff, fun hguarded bytes hfile => file_run events d (hiff.mpr hguarded) hfile⟩

end Runs

/-! ## 4. Two wallets in one directory -/

/-- A directory with nothing in it, and a new process. -/
def empty : WalletDir := { wallet := fresh, file := none, hasNoise := false }

def oneRandomness : Randomness := ⟨FixedBytes.ofNat 32 1, FixedBytes.zero, FixedBytes.zero⟩

def password : List UInt8 := List.replicate 8 97

/-- The wallet `createwallet` makes of these. -/
def other : WalletManager :=
  { created with
    masterPubkey := FixedBytes.ofNat 32 1
    encryptedEntropy := (FixedBytes.ofNat 32 1).data ++ List.replicate 16 0 }

/-- A wallet is created, the node starts again, and another wallet is created. -/
def twoCreations : List DirEvent :=
  [.createwallet password zeroRandomness true, .start, .createwallet password oneRandomness true]

/-- **A wallet is written over.**  Before the last event there is the file of one wallet, afterwards
the file of another. -/
theorem overwritten :
    (@run openCrypto empty (twoCreations.take 2)).file = some created.saveBytes ∧
      (@run openCrypto empty twoCreations).file = some other.saveBytes ∧
      other.masterPubkey ≠ created.masterPubkey ∧
      ¬ @Along openCrypto (@Keeps openCrypto) empty twoCreations := by
  have hfirst : (@run openCrypto empty (twoCreations.take 2)).file = some created.saveBytes := rfl
  refine ⟨hfirst, rfl, by decide, ?_⟩
  rintro ⟨_, _, hlast, _⟩
  obtain ⟨⟨what, hthrew⟩, _⟩ := hlast _ hfirst
  obtain ⟨mnemonic, hret⟩ := @createwallet_ret openCrypto (@run openCrypto empty (twoCreations.take 2))
    password oneRandomness true ⟨⟨by decide, rfl, rfl, rfl, rfl⟩, rfl, rfl⟩
  have hboth := hret.symm.trans hthrew
  cases hboth

/-- A second `createwallet` in the same process fails. -/
theorem kept_in_process :
    @Along openCrypto (@Keeps openCrypto) empty
      [.createwallet password zeroRandomness true, .createwallet password oneRandomness true] :=
  (@kept_iff openCrypto empty _).1.mpr
    ⟨fun _ => .inr (.inr rfl), fun _ => .inl rfl, trivial⟩

end WalletDir

end WalletManager

end Moneu
