import SecureWan.AesCore.Encrypt

/-!
# AES-128

The key schedule and the round function of AES-128, and an expander that computes one round key
in each clock cycle. Byte 0 of a block is its most significant one.
-/

namespace SecureWan.Aes

/-- A byte of a block. -/
def byte (x : Block) (k : ℕ) : BitVec 8 := x.extractLsb' (120 - 8 * k) 8

/-- The block of sixteen bytes. -/
def ofBytes (f : ℕ → BitVec 8) : Block :=
  (List.range 16).foldl (fun x k => x <<< 8 ||| (f k).zeroExtend 128) 0

/-- The S-box, sixteen values in a row. -/
def sboxRows : List Block :=
  [0x637c777bf26b6fc53001672bfed7ab76, 0xca82c97dfa5947f0add4a2af9ca472c0,
    0xb7fd9326363ff7cc34a5e5f171d83115, 0x04c723c31896059a071280e2eb27b275,
    0x09832c1a1b6e5aa0523bd6b329e32f84, 0x53d100ed20fcb15b6acbbe394a4c58cf,
    0xd0efaafb434d338545f9027f503c9fa8, 0x51a3408f929d38f5bcb6da2110fff3d2,
    0xcd0c13ec5f974417c4a77e3d645d1973, 0x60814fdc222a908846eeb814de5e0bdb,
    0xe0323a0a4906245cc2d3ac629195e479, 0xe7c8376d8dd54ea96c56f4ea657aae08,
    0xba78252e1ca6b4c6e8dd741f4bbd8b8a, 0x703eb5664803f60e613557b986c11d9e,
    0xe1f8981169d98e949b1e87e9ce5528df, 0x8ca1890dbfe6426841992d0fb054bb16]

def subByte (b : BitVec 8) : BitVec 8 := byte (sboxRows.getD (b.toNat / 16) 0) (b.toNat % 16)

/-- Multiplication with `x`. -/
def xtime (b : BitVec 8) : BitVec 8 := b <<< 1 ^^^ if b.msb then 0x1b else 0

/-- The bytes of a block substituted and the rows shifted. -/
def subShift (x : Block) (k : ℕ) : BitVec 8 := subByte (byte x ((k + 4 * (k % 4)) % 16))

/-- A byte of a mixed column. -/
def mixed (f : ℕ → BitVec 8) (k : ℕ) : BitVec 8 :=
  let a (r : ℕ) := f (4 * (k / 4) + (k + r) % 4)
  xtime (a 0 ^^^ a 1) ^^^ a 1 ^^^ a 2 ^^^ a 3

/-- A round. -/
def aesRound (state roundKey : Block) (last : Bool) : Block :=
  let shifted := subShift state
  (if last then ofBytes shifted else ofBytes (mixed shifted)) ^^^ roundKey

/-- The constant of a round. -/
def rcon : ℕ → BitVec 8
  | 0 => 1
  | r + 1 => xtime (rcon r)

/-- A word of a block. -/
def word (x : Block) (k : ℕ) : BitVec 32 := x.extractLsb' (96 - 32 * k) 32

/-- The next round key. -/
def nextKey (r : ℕ) (x : Block) : Block :=
  let t := subByte (byte x 13) ++ subByte (byte x 14) ++ subByte (byte x 15) ++ subByte (byte x 12)
  let w0 := word x 0 ^^^ t ^^^ (rcon r).zeroExtend 32 <<< 24
  let w1 := word x 1 ^^^ w0
  let w2 := word x 2 ^^^ w1
  let w3 := word x 3 ^^^ w2
  w0 ++ w1 ++ w2 ++ w3

/-- The round keys of a key. -/
def aesSchedule (key : Block) : ℕ → Block
  | 0 => key
  | r + 1 => nextKey r (aesSchedule key r)

/-- Some keys from the top down. -/
def flatten (keys : ℕ → Block) : ℕ → BitVec 1408
  | 0 => 0
  | n + 1 => flatten keys n <<< 128 ||| (keys n).setWidth 1408

/-- An expander that computes one round key in each clock cycle. -/
def perCycle : KeyExpand (Option Block × ℕ) where
  reset := (none, 0)
  step s start key := if start then (some key, 0) else (s.1, s.2 + 1)
  roundKeysFlat s := s.1.elim 0 fun key =>
    flatten (fun j => if j ≤ s.2 then aesSchedule key j else 0) 11
  done s := s.1.isSome && 10 ≤ s.2

theorem getLsbD_flatten (keys : ℕ → Block) {n j b : ℕ} (hn : 128 * n ≤ 1408) (hj : j < n)
    (hb : b < 128) :
    (flatten keys n).getLsbD (128 * (n - 1 - j) + b) = (keys j).getLsbD b := by
  induction n with
  | zero => omega
  | succ n ih =>
    rw [flatten, BitVec.getLsbD_or, BitVec.getLsbD_shiftLeft, BitVec.getLsbD_setWidth]
    rcases Nat.lt_succ_iff_lt_or_eq.mp hj with hlt | rfl
    · have hpos : 128 * (n + 1 - 1 - j) + b - 128 = 128 * (n - 1 - j) + b := by omega
      have hhigh : 128 ≤ 128 * (n + 1 - 1 - j) + b := by omega
      rw [hpos, ih (by omega) hlt, BitVec.getLsbD_of_ge (keys n) _ hhigh]
      simp
      omega
    · simp [hb]
      omega

theorem rk_flatten (keys : ℕ → Block) {j : ℕ} (hj : j ≤ 10) :
    rk (flatten keys 11) j = keys j := by
  have hbit : ∀ b, b < 128 → (rk (flatten keys 11) j).getLsbD b = (keys j).getLsbD b := by
    intro b hb
    have hpos : 1280 - 128 * j + b = 128 * (11 - 1 - j) + b := by omega
    rw [rk, BitVec.getLsbD_extractLsb', hpos, getLsbD_flatten keys (by decide) (by omega) hb]
    simp [hb]
  exact BitVec.eq_of_getLsbD_eq hbit

/-- A published vector, which the testbench uses too. -/
example : encrypt aesSchedule aesRound 0x2b7e151628aed2a6abf7158809cf4f3c
    0x3243f6a8885a308d313198a2e0370734 = 0x3925841d02dc09fbdc118597196a0b32 := by
  decide +kernel

end SecureWan.Aes
