import SecureWan.Lib.Runs
import Mathlib.Tactic.Common

/-!
# The AES core

`aes_core_encrypt.v` has the key expanded by `aes_key_expand` and then sends the state through
`aes_round` ten times. Both modules are parameters: the expander is a machine that samples a
key with its start pulse and shows its outputs between clock edges, the round is a function.
-/

namespace SecureWan.Aes

/-- 128 bits. -/
abbrev Block := BitVec 128

/-- The inputs in one clock cycle. -/
structure Inputs where
  start : Bool
  keyIn : Block
  plaintextIn : Block

/-- `aes_key_expand`. -/
structure KeyExpand (κ : Type) where
  reset : κ
  step : κ → Bool → Block → κ
  roundKeysFlat : κ → BitVec 1408
  done : κ → Bool

/-- `rk`: eleven keys from the top down. -/
def rk (flat : BitVec 1408) (j : ℕ) : Block := flat.extractLsb' (1280 - 128 * j) 128

/-- The states of the state machine. -/
inductive CoreState where
  | idle
  | latch
  | keygen
  | ark
  | setup
  | capture
  | done
deriving DecidableEq

/-- The registers of the core, with the expander. -/
structure Core (κ : Type) where
  state : CoreState
  done : Bool
  keStart : Bool
  keBusy : Bool
  roundNum : BitVec 4
  curState : Block
  savedKey : Block
  savedPt : Block
  ciphertextOut : Block
  roundStateIn : Block
  roundKeySel : Block
  roundLast : Bool
  keyExpand : κ

namespace Core

variable {κ : Type} (expand : KeyExpand κ) (round : Block → Block → Bool → Block)

/-- The registers after reset. -/
def reset : Core κ where
  state := .idle
  done := false
  keStart := false
  keBusy := false
  roundNum := 0
  curState := 0
  savedKey := 0
  savedPt := 0
  ciphertextOut := 0
  roundStateIn := 0
  roundKeySel := 0
  roundLast := false
  keyExpand := expand.reset

variable (s : Core κ) (i : Inputs)

/-- A clock edge. The values assigned are those before the edge, and `ke_start` is deasserted
unless it is assigned. -/
def step : Core κ :=
  let keyExpand := expand.step s.keyExpand s.keStart s.savedKey
  let flat := expand.roundKeysFlat s.keyExpand
  let next := { s with keStart := false, keyExpand := keyExpand }
  match s.state with
  | .idle =>
    let next := { next with done := false, keBusy := false }
    if i.start then { next with savedKey := i.keyIn, savedPt := i.plaintextIn, state := .latch }
    else next
  | .latch => { next with keStart := true, keBusy := true, state := .keygen }
  | .keygen =>
    if s.keBusy && expand.done s.keyExpand then
      { next with keBusy := false, curState := s.savedPt ^^^ rk flat 0, state := .ark }
    else next
  | .ark =>
    { next with
      roundStateIn := s.curState
      roundKeySel := rk flat 1
      roundLast := false
      roundNum := 1
      state := .capture }
  | .setup =>
    { next with
      roundStateIn := s.curState
      roundKeySel := rk flat s.roundNum.toNat
      roundLast := s.roundNum == 10
      state := .capture }
  | .capture =>
    let next := { next with curState := round s.roundStateIn s.roundKeySel s.roundLast }
    if s.roundNum = 10 then { next with state := .done }
    else { next with roundNum := s.roundNum + 1, state := .setup }
  | .done => { next with ciphertextOut := s.curState, done := true, state := .idle }

/-- A start that is accepted at a clock edge. -/
def accepted : List (Block × Block) :=
  if s.state = .idle ∧ i.start = true then [(i.keyIn, i.plaintextIn)] else []

/-- What is read from `ciphertext_out` after a clock edge when `done` is up. -/
def pulse : List Block :=
  if (s.step expand round i).done = true then [(s.step expand round i).ciphertextOut] else []

/-- The starts that have been accepted in a run. -/
def starts (is : List Inputs) : List (Block × Block) :=
  Runs.trace (step expand round) accepted s is

/-- The ciphertexts of the cycles of a run in which `done` is up. -/
def ciphertexts (is : List Inputs) : List Block :=
  Runs.trace (step expand round) (pulse expand round) s is

end Core

/-! ### AES-128 -/

section Cipher

variable (schedule : Block → ℕ → Block) (round : Block → Block → Bool → Block)

/-- The state after some rounds. -/
def rounds (key plaintext : Block) : ℕ → Block
  | 0 => plaintext ^^^ schedule key 0
  | r + 1 => round (rounds key plaintext r) (schedule key (r + 1)) (r + 1 == 10)

/-- Ten rounds over the round keys of a key. -/
def encrypt (key plaintext : Block) : Block := rounds schedule round key plaintext 10

end Cipher

end SecureWan.Aes
