import SecureWan.Lib.Memory
import SecureWan.Lib.Programs

/-!
# The board behind the serial port

`class Board` of `host_kex.py`: one byte commands with their arguments go to the board, and each
of them is answered by one byte. The board itself is not part of the host; `BoardSpec` says what
the host relies on, with a link that may lose what is written.
-/

namespace SecureWan.KeyExchange

/-- A serial port with what is behind it. `read1` is `read(1)`, which gives nothing after the
timeout; `sleep` is `time.sleep`, in milliseconds. -/
structure SerialPort (σ : Type) where
  write : Bytes → σ → σ
  read1 : σ → Option UInt8 × σ
  resetInputBuffer : σ → σ
  sleep : ℕ → σ → σ

/-- The exceptions of the host. -/
inductive HostError
  /-- `no reply`. -/
  | noReply (name what : String)
  /-- `got, want`. -/
  | unexpected (name what : String) (got want : UInt8)
  /-- `readback differs at byte`. -/
  | readback (name what : String) (n : ℕ) (wrote read : UInt8)
  /-- `timed out`. -/
  | timedOut (name what : String)
deriving DecidableEq

/-- `Board`. -/
structure Board (σ : Type) where
  name : String
  port : SerialPort σ

/-- A program of the host. -/
abbrev Host (σ α : Type) : Type := Program σ HostError α

/-! ### Commands -/

def cPing : UInt8 := 0xA5
def pingR : UInt8 := 0x5A
def cWr : UInt8 := 0x10
def cRd : UInt8 := 0x11
def cSeed : UInt8 := 0x12
def cStat : UInt8 := 0x30
def cCyc : UInt8 := 0x31
def cRst : UInt8 := 0x40

/-- The operations of the board. -/
inductive Op
  | keyGen
  | encaps
  | decaps
deriving DecidableEq

/-- `C_KG`, `C_EN`, `C_DE`. -/
def Op.cmd : Op → UInt8
  | .keyGen => 0x20
  | .encaps => 0x21
  | .decaps => 0x22

/-- The text of `run`. -/
def Op.what : Op → String
  | .keyGen => "KeyGen"
  | .encaps => "Encaps"
  | .decaps => "Decaps"

/-- `ML_KEM` keys, but for `z`: the parts of `dk` as the board keeps them. -/
structure KeyPair where
  ek : Bytes
  dkPke : Bytes
  hek : Bytes
deriving DecidableEq

/-- The key encapsulation mechanism. `encaps` gives the secret and the ciphertext, `decaps` the
secret and whether the ciphertext was rejected. -/
structure Kem where
  keyGen : Bytes → Bytes → KeyPair
  encaps : Bytes → Bytes → Bytes × Bytes
  decaps : KeyPair → Bytes → Bytes → Bytes × Bool
  length_ciphertext : ∀ ek m, (encaps ek m).2.length = 768

/-- The bytes of an address on the line, the lower one first. -/
def addrBytes (addr : ℕ) : Bytes := [UInt8.ofNat addr, UInt8.ofNat (addr >>> 8)]

/-! ### The byte map -/

def ctBase : ℕ := 0
def dkBase : ℕ := 1024
def msgBase : ℕ := 1868
def ekBase : ℕ := 2048
def hekBase : ℕ := 2900
def zBase : ℕ := 3100
def ssBase : ℕ := 3900

namespace Board

variable {σ : Type} (bd : Board σ)

/-- `self.ser.write`. -/
def write (bs : Bytes) : Host σ Unit := .ofFun fun s => ((), bd.port.write bs s)

/-- `self.ser.read(1)`. -/
def read1 : Host σ (Option UInt8) := .ofFun bd.port.read1

/-- `time.sleep`. -/
def sleep (ms : ℕ) : Host σ Unit := .ofFun fun s => ((), bd.port.sleep ms s)

/-- `_expect`. -/
def expect (want : UInt8) (what : String) : Host σ Unit := do
  match ← bd.read1 with
  | none => .fail (.noReply bd.name what)
  | some got => if got ≠ want then .fail (.unexpected bd.name what got want) else pure ()

/-- `b = self.ser.read(1)`, which has to give a byte. -/
def readByte (what : String) : Host σ UInt8 := do
  match ← bd.read1 with
  | none => .fail (.noReply bd.name what)
  | some b => pure b

/-- The body of the loop of `ping`. -/
def pingOnce : Host σ Unit := do
  .ofFun fun s => ((), bd.port.resetInputBuffer s)
  bd.write [cPing]
  bd.expect pingR "PING"

/-- `ping`. -/
def ping : ℕ → Host σ Unit
  | 0 => pure ()
  | 1 => bd.pingOnce
  | retries + 2 => bd.pingOnce.orElse do
      bd.sleep 300
      ping (retries + 1)

/-- `wr`. -/
def wr (addr : ℕ) (b : UInt8) : Host σ Unit := do
  bd.write (cWr :: addrBytes addr ++ [b])
  bd.expect cWr s!"WR[{addr}]"

/-- `rd`. -/
def rd (addr : ℕ) : Host σ UInt8 := do
  bd.write (cRd :: addrBytes addr)
  bd.readByte s!"RD[{addr}]"

/-- `wr_block`. -/
def wrBlock (addr : ℕ) : Bytes → Host σ Unit
  | [] => pure ()
  | b :: data => do
    bd.wr addr b
    wrBlock (addr + 1) data

/-- `rd_block`. -/
def rdBlock (addr : ℕ) : ℕ → Host σ Bytes
  | 0 => pure []
  | n + 1 => do
    let b ← bd.rd addr
    let rest ← rdBlock (addr + 1) n
    pure (b :: rest)

/-- The first byte that differs. -/
def firstDiff (back data : Bytes) : ℕ :=
  (List.range data.length).findIdx fun i => back.byteAt i != data.byteAt i

/-- `wr_verified`. -/
def wrVerified (addr : ℕ) (data : Bytes) (what : String) : Host σ Unit := do
  bd.wrBlock addr data
  let back ← bd.rdBlock addr data.length
  if back ≠ data then
    let n := firstDiff back data
    .fail (.readback bd.name what n (data.byteAt n) (back.byteAt n))
  else pure ()

/-- The loop of `seed`, from a position on. -/
def seedFrom (i : ℕ) : Bytes → Host σ Unit
  | [] => pure ()
  | b :: data => do
    bd.write [cSeed, UInt8.ofNat i, b]
    bd.expect cSeed s!"SEED[{i}]"
    seedFrom (i + 1) data

/-- `seed`. -/
def seed (data : Bytes) : Host σ Unit := bd.seedFrom 0 data

/-- `soft_reset`. -/
def softReset : Host σ Unit := do
  bd.write [cRst]
  bd.expect cRst "RESET"
  bd.sleep 50

/-- What `status` returns, but for `done`, which nobody reads. -/
structure Status where
  busy : Bool
  reject : Bool

/-- `status`. -/
def status : Host σ Status := do
  bd.write [cStat]
  let b ← bd.readByte "STATUS"
  pure ⟨b &&& 1 != 0, b &&& 4 != 0⟩

/-- `cycles`. -/
def cycles : Host σ ℕ := do
  let b₀ ← readCycleByte
  let b₁ ← readCycleByte
  let b₂ ← readCycleByte
  let b₃ ← readCycleByte
  pure (b₀.toNat ||| b₁.toNat <<< 8 ||| b₂.toNat <<< 16 ||| b₃.toNat <<< 24)
where
  readCycleByte : Host σ UInt8 := do
    bd.write [cCyc]
    bd.readByte "CYCLES"

/-- The first loop of `run`, while so many more looks at the clock find time left: those that
the second loop has are returned. -/
def awaitBusy : ℕ → Host σ ℕ
  | 0 => pure 0
  | looks + 1 => do
    let st ← bd.status
    if st.busy then pure looks else awaitBusy looks

/-- The second loop of `run`. -/
def awaitIdle (what : String) : ℕ → Host σ Status
  | 0 => .fail (.timedOut bd.name what)
  | looks + 1 => do
    let st ← bd.status
    if !st.busy then pure st else awaitIdle what looks

/-- `run`, with the number of looks at the clock that find time left. -/
def run (op : Op) (looks : ℕ) : Host σ Status := do
  bd.write [op.cmd]
  bd.expect op.cmd ("START " ++ op.what)
  let left ← bd.awaitBusy looks
  bd.awaitIdle op.what left

end Board

/-! ### When an operation is taken for done -/

section Polls

variable {σ : Type} {bd : Board σ} {s s' : σ} {st : Board.Status}

/-- Looks at the status, one after the other. -/
inductive Polls (bd : Board σ) : List Board.Status → σ → σ → Prop
  | nil (s : σ) : Polls bd [] s s
  | cons {st : Board.Status} {sts : List Board.Status} {s s₁ s' : σ}
    (look : bd.status.run s = (.ok st, s₁)) (rest : Polls bd sts s₁ s') :
    Polls bd (st :: sts) s s'

theorem polls_cons {sts : List Board.Status} : Polls bd (st :: sts) s s' ↔
    ∃ s₁, bd.status.run s = (.ok st, s₁) ∧ Polls bd sts s₁ s' := by
  constructor
  · rintro ⟨⟩
    exact ⟨_, ‹_›, ‹_›⟩
  · rintro ⟨s₁, look, rest⟩
    exact .cons look rest

theorem polls_singleton : Polls bd [st] s s' ↔ bd.status.run s = (.ok st, s') := by
  constructor
  · intro h
    obtain ⟨s₁, look, rest⟩ := polls_cons.mp h
    cases rest
    exact look
  · exact fun look => .cons look (.nil s')

theorem polls_append {sts sts' : List Board.Status} : Polls bd (sts ++ sts') s s' ↔
    ∃ s₁, Polls bd sts s s₁ ∧ Polls bd sts' s₁ s' := by
  induction sts generalizing s with
  | nil =>
    refine ⟨fun h => ⟨s, .nil s, h⟩, ?_⟩
    rintro ⟨s₁, ⟨⟩, h⟩
    exact h
  | cons st sts ih =>
    simp only [List.cons_append, polls_cons, ih]
    constructor
    · rintro ⟨s₁, look, s₂, hfirst, hrest⟩
      exact ⟨s₂, ⟨s₁, look, hfirst⟩, hrest⟩
    · rintro ⟨s₂, ⟨s₁, look, hfirst⟩, hrest⟩
      exact ⟨s₁, look, s₂, hfirst, hrest⟩

/-- The first loop leaves time only where it found the board busy. -/
theorem awaitBusy_returns_iff {looks left : ℕ} (hleft : 0 < left) :
    (bd.awaitBusy looks).run s = (.ok left, s') ↔ ∃ before p, before.length + 1 + left = looks ∧
      (∀ q ∈ before, q.busy = false) ∧ p.busy = true ∧ Polls bd (before ++ [p]) s s' := by
  induction looks generalizing s with
  | zero =>
    refine ⟨fun h => ?_, ?_⟩
    · obtain ⟨rfl, _⟩ := Program.pure_eq_ok_iff.mp h
      exact absurd hleft (Nat.lt_irrefl 0)
    · rintro ⟨before, p, hlen, _⟩
      omega
  | succ looks ih =>
    have hstep : (bd.awaitBusy (looks + 1)).run s = (.ok left, s') ↔
        ∃ st s₁, bd.status.run s = (.ok st, s₁) ∧
          (if st.busy then pure looks else bd.awaitBusy looks : Host σ ℕ).run s₁ = (.ok left, s') :=
      Program.bind_eq_ok_iff
    rw [hstep]
    constructor
    · rintro ⟨st, s₁, look, hrest⟩
      cases hbusy : st.busy with
      | true =>
        rw [if_pos hbusy, Program.pure_eq_ok_iff] at hrest
        obtain ⟨rfl, rfl⟩ := hrest
        exact ⟨[], st, by rw [List.length_nil, Nat.zero_add, Nat.add_comm], by simp, hbusy,
          polls_singleton.mpr look⟩
      | false =>
        rw [if_neg (by rw [hbusy]; decide), ih] at hrest
        obtain ⟨before, p, hlen, hidle, hp, hpolls⟩ := hrest
        refine ⟨st :: before, p, ?_, ?_, hp, polls_cons.mpr ⟨s₁, look, hpolls⟩⟩
        · rw [List.length_cons]
          omega
        · exact List.forall_mem_cons.mpr ⟨hbusy, hidle⟩
    · rintro ⟨before, p, hlen, hidle, hp, hpolls⟩
      cases before with
      | nil =>
        refine ⟨p, s', polls_singleton.mp hpolls, ?_⟩
        rw [if_pos hp, Program.pure_eq_ok_iff]
        rw [List.length_nil] at hlen
        exact ⟨by omega, rfl⟩
      | cons st before =>
        obtain ⟨s₁, look, hrest⟩ := polls_cons.mp hpolls
        obtain ⟨hst, hidle⟩ := List.forall_mem_cons.mp hidle
        refine ⟨st, s₁, look, ?_⟩
        rw [if_neg (by rw [hst]; decide), ih]
        rw [List.length_cons] at hlen
        exact ⟨before, p, by omega, hidle, hp, hrest⟩

theorem awaitIdle_returns_iff {what : String} {looks : ℕ} :
    (bd.awaitIdle what looks).run s = (.ok st, s') ↔ ∃ during, during.length < looks ∧
      (∀ q ∈ during, q.busy = true) ∧ st.busy = false ∧ Polls bd (during ++ [st]) s s' := by
  induction looks generalizing s with
  | zero =>
    refine ⟨fun h => ?_, ?_⟩
    · cases h
    · rintro ⟨during, hlen, _⟩
      exact absurd hlen (Nat.not_lt_zero _)
  | succ looks ih =>
    have hstep : (bd.awaitIdle what (looks + 1)).run s = (.ok st, s') ↔
        ∃ q s₁, bd.status.run s = (.ok q, s₁) ∧
          (if !q.busy then pure q else bd.awaitIdle what looks : Host σ Board.Status).run s₁ =
            (.ok st, s') := Program.bind_eq_ok_iff
    rw [hstep]
    constructor
    · rintro ⟨q, s₁, look, hrest⟩
      cases hbusy : q.busy with
      | false =>
        rw [if_pos (by rw [hbusy]; rfl), Program.pure_eq_ok_iff] at hrest
        obtain ⟨rfl, rfl⟩ := hrest
        exact ⟨[], Nat.succ_pos looks, by simp, hbusy, polls_singleton.mpr look⟩
      | true =>
        rw [if_neg (by rw [hbusy]; decide), ih] at hrest
        obtain ⟨during, hlen, hduring, hst, hpolls⟩ := hrest
        exact ⟨q :: during, Nat.succ_lt_succ hlen, List.forall_mem_cons.mpr ⟨hbusy, hduring⟩, hst,
          polls_cons.mpr ⟨s₁, look, hpolls⟩⟩
    · rintro ⟨during, hlen, hduring, hst, hpolls⟩
      cases during with
      | nil =>
        refine ⟨st, s', polls_singleton.mp hpolls, ?_⟩
        rw [if_pos (by rw [hst]; rfl), Program.pure_eq_ok_iff]
        exact ⟨rfl, rfl⟩
      | cons q during =>
        obtain ⟨s₁, look, hrest⟩ := polls_cons.mp hpolls
        obtain ⟨hq, hduring⟩ := List.forall_mem_cons.mp hduring
        refine ⟨q, s₁, look, ?_⟩
        rw [if_neg (by rw [hq]; decide), ih]
        exact ⟨during, Nat.lt_of_succ_lt_succ hlen, hduring, hst, hrest⟩

theorem start_returns_iff {bs : Bytes} {want : UInt8} {what : String} :
    (bd.write bs >>= fun _ => bd.expect want what).run s = (.ok (), s') ↔
      bd.port.read1 (bd.port.write bs s) = (some want, s') := by
  have hstep : (bd.write bs >>= fun _ => bd.expect want what).run s =
      (bd.expect want what).run (bd.port.write bs s) := rfl
  rw [hstep, Board.expect, Program.bind_eq_ok_iff]
  constructor
  · rintro ⟨got, s₁, hread, hgot⟩
    have hread' : bd.port.read1 (bd.port.write bs s) = (got, s₁) := by
      cases hread
      rfl
    cases got with
    | none => cases hgot
    | some got =>
      dsimp only at hgot
      by_cases hne : got ≠ want
      · rw [if_pos hne] at hgot
        cases hgot
      · rw [if_neg hne, Program.pure_eq_ok_iff] at hgot
        rw [hread', not_not.mp hne, hgot.2]
  · intro hread
    refine ⟨some want, s', ?_, ?_⟩
    · have hrun : bd.read1.run (bd.port.write bs s) =
          (.ok (bd.port.read1 (bd.port.write bs s)).1, (bd.port.read1 (bd.port.write bs s)).2) :=
        rfl
      rw [hrun, hread]
    · dsimp only
      rw [if_neg fun hne => hne rfl]
      rfl

/-- **A busy board has to be seen.** Whatever answers on the line, `run` returns exactly when the
command is acknowledged and the looks at the status find the board idle for a while, then busy,
then idle again before the time is over; it returns the last of them. So the end of an earlier
operation is never taken for the end of this one, and an operation that ends before the first look
is given up. -/
theorem run_returns_iff {op : Op} {looks : ℕ} :
    (bd.run op looks).run s = (.ok st, s') ↔
      ∃ s₁ before during, bd.port.read1 (bd.port.write [op.cmd] s) = (some op.cmd, s₁) ∧
        (∀ q ∈ before, q.busy = false) ∧ during ≠ [] ∧ (∀ q ∈ during, q.busy = true) ∧
        st.busy = false ∧ before.length + during.length + 1 ≤ looks ∧
        Polls bd (before ++ during ++ [st]) s₁ s' := by
  have hstep : (bd.run op looks).run s = (.ok st, s') ↔ ∃ u s₁,
      (bd.write [op.cmd] >>= fun _ => bd.expect op.cmd ("START " ++ op.what)).run s =
        (.ok u, s₁) ∧ ∃ left s₂, (bd.awaitBusy looks).run s₁ = (.ok left, s₂) ∧
          (bd.awaitIdle op.what left).run s₂ = (.ok st, s') := by
    rw [← exists_congr fun u => exists_congr fun s₁ => and_congr_right fun _ =>
      Program.bind_eq_ok_iff, ← Program.bind_eq_ok_iff]
    rfl
  rw [hstep]
  constructor
  · rintro ⟨u, s₁, hstart, left, s₂, hbusy, hidle⟩
    obtain ⟨during, hlen, hduring, hst, hpolls⟩ := awaitIdle_returns_iff.mp hidle
    obtain ⟨before, p, hcount, hbefore, hp, hpolls'⟩ :=
      (awaitBusy_returns_iff (by omega)).mp hbusy
    refine ⟨s₁, before, p :: during, start_returns_iff.mp hstart, hbefore, List.cons_ne_nil _ _,
      List.forall_mem_cons.mpr ⟨hp, hduring⟩, hst, ?_, ?_⟩
    · rw [List.length_cons]
      omega
    · have hparts : before ++ p :: during ++ [st] = (before ++ [p]) ++ (during ++ [st]) := by
        rw [List.append_assoc, List.append_assoc, List.cons_append, List.singleton_append]
      rw [hparts, polls_append]
      exact ⟨s₂, hpolls', hpolls⟩
  · rintro ⟨s₁, before, during, hstart, hbefore, hne, hduring, hst, hlen, hpolls⟩
    obtain ⟨p, during, rfl⟩ := List.exists_cons_of_ne_nil hne
    obtain ⟨hp, hduring⟩ := List.forall_mem_cons.mp hduring
    rw [List.length_cons] at hlen
    have hparts : before ++ p :: during ++ [st] = (before ++ [p]) ++ (during ++ [st]) := by
      rw [List.append_assoc, List.append_assoc, List.cons_append, List.singleton_append]
    rw [hparts, polls_append] at hpolls
    obtain ⟨s₂, hpolls', hpolls⟩ := hpolls
    refine ⟨(), s₁, start_returns_iff.mpr hstart, looks - before.length - 1, s₂, ?_, ?_⟩
    · exact (awaitBusy_returns_iff (by omega)).mpr ⟨before, p, by omega, hbefore, hp, hpolls'⟩
    · exact awaitIdle_returns_iff.mpr ⟨during, by omega, hduring, hst, hpolls⟩

end Polls

/-! ### What the host relies on -/

/-- The key pair in the memory of the board. -/
def keyPair (mem : Memory) : KeyPair :=
  ⟨mem.read ekBase 800, mem.read dkBase 768, mem.read hekBase 32⟩

/-- What an operation does with the memories: `z` survives the key generation, a ciphertext is
found where it is decrypted and again behind `z`, and everything else may change. -/
def OpEffect (kem : Kem) : Op → Memory → Memory → Memory → Bool → Prop
  | .keyGen, sd, mem, mem', _ =>
    keyPair mem' = kem.keyGen (sd.read 0 32) (mem.read zBase 32) ∧
      mem'.read zBase 32 = mem.read zBase 32
  | .encaps, _, mem, mem', _ =>
    (mem'.read ssBase 32, mem'.read ctBase 768) =
      kem.encaps (mem.read ekBase 800) (mem.read msgBase 32)
  | .decaps, _, mem, mem', reject =>
    mem.read (zBase + 32) 768 = mem.read ctBase 768 →
      (mem'.read ssBase 32, reject) =
        kem.decaps (keyPair mem) (mem.read zBase 32) (mem.read ctBase 768)

/-- The answer to some bytes. -/
def SerialPort.answer {σ : Type} (port : SerialPort σ) (s : σ) (bs : Bytes) : Option UInt8 × σ :=
  port.read1 (port.write bs s)

/-- A board with the byte memory `mem` and the seed memory `sd` between two commands, or with an
operation that so many looks at the status still find busy. Where the link is `lossy`, a byte may
be acknowledged and not written. -/
structure BoardSpec {σ : Type} (port : SerialPort σ) (kem : Kem) (lossy : Prop) where
  Idle : Memory → Memory → σ → Prop
  Running : ℕ → Memory → Memory → Bool → σ → Prop
  reset : ∀ {mem sd s}, Idle mem sd s → Idle mem sd (port.resetInputBuffer s)
  sleep : ∀ {mem sd s} ms, Idle mem sd s → Idle mem sd (port.sleep ms s)
  ping : ∀ {mem sd s}, Idle mem sd s →
    ∃ s', port.answer s [cPing] = (some pingR, s') ∧ Idle mem sd s'
  wr : ∀ {mem sd s addr} b, addr < 8192 → Idle mem sd s →
    ∃ s' mem', port.answer s (cWr :: addrBytes addr ++ [b]) = (some cWr, s') ∧ Idle mem' sd s' ∧
      (mem' = mem.write addr [b] ∨ lossy ∧ mem' = mem)
  rd : ∀ {mem sd s addr}, addr < 8192 → Idle mem sd s →
    ∃ s', port.answer s (cRd :: addrBytes addr) = (some (mem addr), s') ∧ Idle mem sd s'
  seed : ∀ {mem sd s i} b, i < 32 → Idle mem sd s →
    ∃ s' sd', port.answer s [cSeed, UInt8.ofNat i, b] = (some cSeed, s') ∧ Idle mem sd' s' ∧
      (sd' = sd.write i [b] ∨ lossy ∧ sd' = sd)
  softReset : ∀ {mem sd s}, Idle mem sd s →
    ∃ s', port.answer s [cRst] = (some cRst, s') ∧ Idle mem sd s'
  cycles : ∀ {mem sd s}, Idle mem sd s →
    ∃ b s', port.answer s [cCyc] = (some b, s') ∧ Idle mem sd s'
  idle : ∀ {mem sd s}, Idle mem sd s →
    ∃ b s', port.answer s [cStat] = (some b, s') ∧ b &&& 1 = 0 ∧ Idle mem sd s'
  start : ∀ {mem sd s} (op : Op), Idle mem sd s →
    ∃ n mem' reject s', port.answer s [op.cmd] = (some op.cmd, s') ∧
      OpEffect kem op sd mem mem' reject ∧ Running n mem' sd reject s'
  busy : ∀ {n mem sd reject s}, Running (n + 1) mem sd reject s →
    ∃ b s', port.answer s [cStat] = (some b, s') ∧ b &&& 1 ≠ 0 ∧ Running n mem sd reject s'
  finish : ∀ {mem sd reject s}, Running 0 mem sd reject s →
    ∃ b s', port.answer s [cStat] = (some b, s') ∧ b &&& 1 = 0 ∧
      (b &&& 4 != 0) = reject ∧ Idle mem sd s'

/-- The errors that a board that keeps to its specification may cause: what was lost is found
when it is read back, and an operation may take too long. -/
def Excused (lossy : Prop) : HostError → Prop
  | .noReply _ _ => False
  | .unexpected _ _ _ _ => False
  | .readback _ _ _ _ _ => lossy
  | .timedOut _ _ => True

namespace Board

variable {σ : Type} {bd : Board σ} {kem : Kem} {lossy : Prop} {P : σ → Prop}
  {E : HostError → σ → Prop} {mem sd : Memory}

/-! ### One command -/

theorem triple_expect {bs : Bytes} {want : UInt8} {what : String} {Q : Unit → σ → Prop}
    (h : ∀ s, P s → ∃ s', bd.port.answer s bs = (some want, s') ∧ Q () s') :
    Program.Triple P (bd.write bs >>= fun _ => bd.expect want what) Q E := by
  refine (Program.triple_ofFun fun s hs => h s hs : Program.Triple P (bd.write bs) (fun _ s =>
    ∃ s', bd.port.read1 s = (some want, s') ∧ Q () s') E).bind fun _ => ?_
  have hread : Program.Triple (fun s => ∃ s', bd.port.read1 s = (some want, s') ∧ Q () s')
      bd.read1 (fun got s => got = some want ∧ Q () s) E := by
    apply Program.triple_ofFun
    rintro s ⟨s', hread, hq⟩
    rw [hread]
    exact ⟨rfl, hq⟩
  refine hread.bind fun got => Program.triple_and fun hgot => ?_
  subst hgot
  exact Program.triple_ite (fun hne => absurd rfl hne) fun _ => Program.triple_pure fun s hs => hs

theorem triple_readByte {bs : Bytes} {what : String} {Q : UInt8 → σ → Prop}
    (h : ∀ s, P s → ∃ b s', bd.port.answer s bs = (some b, s') ∧ Q b s') :
    Program.Triple P (bd.write bs >>= fun _ => bd.readByte what) Q E := by
  refine (Program.triple_ofFun fun s hs => h s hs : Program.Triple P (bd.write bs) (fun _ s =>
    ∃ b s', bd.port.read1 s = (some b, s') ∧ Q b s') E).bind fun _ => ?_
  have hread : Program.Triple (fun s => ∃ b s', bd.port.read1 s = (some b, s') ∧ Q b s')
      bd.read1 (fun got s => ∃ b, got = some b ∧ Q b s) E := by
    apply Program.triple_ofFun
    rintro s ⟨b, s', hread, hq⟩
    rw [hread]
    exact ⟨b, rfl, hq⟩
  refine hread.bind fun got => Program.triple_exists fun b => Program.triple_and fun hgot => ?_
  subst hgot
  exact Program.triple_pure fun s hs => hs

variable (spec : BoardSpec bd.port kem lossy)

include spec

theorem triple_ping (retries : ℕ) :
    Program.Triple (spec.Idle mem sd) (bd.ping retries) (fun _ => spec.Idle mem sd) E := by
  have honce {E : HostError → σ → Prop} :
      Program.Triple (spec.Idle mem sd) bd.pingOnce (fun _ => spec.Idle mem sd) E := by
    refine (Program.triple_ofFun fun s hs => spec.reset hs : Program.Triple (spec.Idle mem sd)
      _ (fun _ => spec.Idle mem sd) E).bind fun _ => ?_
    exact triple_expect fun s hs => spec.ping hs
  induction retries using ping.induct with
  | case1 => exact Program.triple_pure fun s hs => hs
  | case2 => exact honce
  | case3 retries ih =>
    have hfirst : Program.Triple (spec.Idle mem sd) bd.pingOnce (fun _ => spec.Idle mem sd)
        fun _ => spec.Idle mem sd := honce
    refine hfirst.orElse ?_
    exact (Program.triple_ofFun fun s hs => spec.sleep 300 hs : Program.Triple (spec.Idle mem sd)
      _ (fun _ => spec.Idle mem sd) E).bind fun _ => ih

theorem triple_softReset :
    Program.Triple (spec.Idle mem sd) bd.softReset (fun _ => spec.Idle mem sd) E := by
  have hreset : Program.Triple (spec.Idle mem sd)
      (bd.write [cRst] >>= fun _ => bd.expect cRst "RESET") (fun _ => spec.Idle mem sd) E :=
    triple_expect fun s hs => spec.softReset hs
  have hsleep : Program.Triple (spec.Idle mem sd) (bd.sleep 50) (fun _ => spec.Idle mem sd) E :=
    Program.triple_ofFun fun s hs => spec.sleep 50 hs
  exact hreset.bind fun _ => hsleep

omit spec in
/-- A block that was written, but for bytes that a lossy link has lost. -/
def Written (lossy : Prop) (mem : Memory) (addr : ℕ) (data : Bytes) (mem' : Memory) : Prop :=
  (∀ k, k < addr ∨ addr + data.length ≤ k → mem' k = mem k) ∧
    (¬lossy → mem' = mem.write addr data)

theorem triple_wr {addr : ℕ} (b : UInt8) (haddr : addr < 8192) :
    Program.Triple (spec.Idle mem sd) (bd.wr addr b)
      (fun _ s => ∃ mem', Written lossy mem addr [b] mem' ∧ spec.Idle mem' sd s) E := by
  apply triple_expect
  intro s hs
  obtain ⟨s', mem', hanswer, hidle, hmem⟩ := spec.wr b haddr hs
  refine ⟨s', hanswer, mem', ⟨fun k hk => ?_, fun hlossless => ?_⟩, hidle⟩
  · rcases hmem with rfl | ⟨_, rfl⟩
    · exact Memory.write_of_outside hk
    · rfl
  · exact hmem.resolve_right fun h => hlossless h.1

omit spec in
theorem written_cons {addr : ℕ} {b : UInt8} {data : Bytes} {mem₁ mem₂ : Memory}
    (hfirst : Written lossy mem addr [b] mem₁) (hrest : Written lossy mem₁ (addr + 1) data mem₂) :
    Written lossy mem addr (b :: data) mem₂ := by
  refine ⟨fun k hk => ?_, fun hlossless => ?_⟩
  · rw [List.length_cons] at hk
    rw [hrest.1 k (by omega), hfirst.1 k (by rw [List.length_singleton]; omega)]
  · rw [hrest.2 hlossless, hfirst.2 hlossless, ← Memory.write_cons]

theorem triple_wrBlock {addr : ℕ} (data : Bytes) (haddr : addr + data.length ≤ 8192) :
    Program.Triple (spec.Idle mem sd) (bd.wrBlock addr data)
      (fun _ s => ∃ mem', Written lossy mem addr data mem' ∧ spec.Idle mem' sd s) E := by
  induction data generalizing addr mem with
  | nil =>
    refine Program.triple_pure fun s hs => ⟨mem, ⟨fun _ _ => rfl, fun _ => ?_⟩, hs⟩
    rw [Memory.write_nil]
  | cons b data ih =>
    rw [List.length_cons] at haddr
    refine (triple_wr spec b (by omega)).bind fun _ => Program.triple_exists fun mem₁ =>
      Program.triple_and fun hfirst => ?_
    refine (ih (by omega)).conseq (fun _ hs => hs) ?_
    rintro _ s ⟨mem₂, hrest, hidle⟩
    exact ⟨mem₂, written_cons hfirst hrest, hidle⟩

theorem triple_rd {addr : ℕ} (haddr : addr < 8192) :
    Program.Triple (spec.Idle mem sd) (bd.rd addr)
      (fun b s => b = mem addr ∧ spec.Idle mem sd s) E := by
  apply triple_readByte
  intro s hs
  obtain ⟨s', hanswer, hidle⟩ := spec.rd haddr hs
  exact ⟨mem addr, s', hanswer, rfl, hidle⟩

theorem triple_rdBlock {addr n : ℕ} (haddr : addr + n ≤ 8192) :
    Program.Triple (spec.Idle mem sd) (bd.rdBlock addr n)
      (fun bs s => bs = mem.read addr n ∧ spec.Idle mem sd s) E := by
  induction n generalizing addr with
  | zero => exact Program.triple_pure fun s hs => ⟨rfl, hs⟩
  | succ n ih =>
    refine (triple_rd spec (by omega)).bind fun b => Program.triple_and fun hb => ?_
    refine (ih (by omega)).bind fun rest => Program.triple_and fun hrest => ?_
    refine Program.triple_pure fun s hs => ⟨?_, hs⟩
    rw [hb, hrest, Memory.read_succ]

/-- What is read back is what was to be written. -/
theorem triple_wrVerified {addr : ℕ} (data : Bytes) (what : String)
    (haddr : addr + data.length ≤ 8192) :
    Program.Triple (spec.Idle mem sd) (bd.wrVerified addr data what)
      (fun _ s => ∃ mem', (mem'.read addr data.length = data ∧
        ∀ k, k < addr ∨ addr + data.length ≤ k → mem' k = mem k) ∧ spec.Idle mem' sd s)
      fun e _ => Excused lossy e := by
  refine (triple_wrBlock spec data haddr).bind fun _ => Program.triple_exists fun mem' =>
    Program.triple_and fun hwritten => ?_
  refine (triple_rdBlock spec haddr).bind fun back => Program.triple_and fun hback => ?_
  subst hback
  refine Program.triple_ite (fun hne => ?_) fun heq => ?_
  · refine Program.triple_fail fun _ _ => ?_
    by_contra hlossless
    apply hne
    rw [hwritten.2 hlossless, Memory.read_write_self rfl]
  · exact Program.triple_pure fun s hs => ⟨mem', ⟨not_not.mp heq, hwritten.1⟩, hs⟩

theorem triple_seedFrom {i : ℕ} (data : Bytes) (hlen : i + data.length ≤ 32) :
    Program.Triple (spec.Idle mem sd) (bd.seedFrom i data)
      (fun _ s => ∃ sd', Written lossy sd i data sd' ∧ spec.Idle mem sd' s) E := by
  induction data generalizing i sd with
  | nil =>
    refine Program.triple_pure fun s hs => ⟨sd, ⟨fun _ _ => rfl, fun _ => ?_⟩, hs⟩
    rw [Memory.write_nil]
  | cons b data ih =>
    rw [List.length_cons] at hlen
    have hone : Program.Triple (spec.Idle mem sd)
        (bd.write [cSeed, UInt8.ofNat i, b] >>= fun _ => bd.expect cSeed s!"SEED[{i}]")
        (fun _ s => ∃ sd', Written lossy sd i [b] sd' ∧ spec.Idle mem sd' s) E := by
      apply triple_expect
      intro s hs
      obtain ⟨s', sd', hanswer, hidle, hsd⟩ := spec.seed b (show i < 32 by omega) hs
      refine ⟨s', hanswer, sd', ⟨fun k hk => ?_, fun hlossless => ?_⟩, hidle⟩
      · rcases hsd with rfl | ⟨_, rfl⟩
        · exact Memory.write_of_outside hk
        · rfl
      · exact hsd.resolve_right fun h => hlossless h.1
    refine hone.bind fun _ => Program.triple_exists fun sd₁ => Program.triple_and fun hfirst => ?_
    refine (ih (by omega)).conseq (fun _ hs => hs) ?_
    rintro _ s ⟨sd₂, hrest, hidle⟩
    exact ⟨sd₂, written_cons hfirst hrest, hidle⟩

theorem triple_cycles :
    Program.Triple (spec.Idle mem sd) bd.cycles (fun _ => spec.Idle mem sd) E := by
  have hbyte : Program.Triple (spec.Idle mem sd) (cycles.readCycleByte bd)
      (fun _ => spec.Idle mem sd) E := triple_readByte fun s hs => spec.cycles hs
  exact hbyte.bind fun _ => hbyte.bind fun _ => hbyte.bind fun _ => hbyte.bind fun _ =>
    Program.triple_pure fun s hs => hs

/-! ### An operation -/

theorem triple_status_idle :
    Program.Triple (spec.Idle mem sd) bd.status
      (fun st s => st.busy = false ∧ spec.Idle mem sd s) E := by
  have hread : Program.Triple (spec.Idle mem sd)
      (bd.write [cStat] >>= fun _ => bd.readByte "STATUS")
      (fun b s => b &&& 1 = 0 ∧ spec.Idle mem sd s) E := triple_readByte fun s hs => by
    obtain ⟨b, s', hanswer, hbusy, hidle⟩ := spec.idle hs
    exact ⟨b, s', hanswer, hbusy, hidle⟩
  refine hread.bind fun b => Program.triple_pure fun s hs => ⟨?_, hs.2⟩
  rw [hs.1]
  rfl

theorem triple_status_busy {n : ℕ} {reject : Bool} :
    Program.Triple (spec.Running (n + 1) mem sd reject) bd.status
      (fun st s => st.busy = true ∧ spec.Running n mem sd reject s) E := by
  have hread : Program.Triple (spec.Running (n + 1) mem sd reject)
      (bd.write [cStat] >>= fun _ => bd.readByte "STATUS")
      (fun b s => b &&& 1 ≠ 0 ∧ spec.Running n mem sd reject s) E := triple_readByte fun s hs => by
    obtain ⟨b, s', hanswer, hbusy, hrunning⟩ := spec.busy hs
    exact ⟨b, s', hanswer, hbusy, hrunning⟩
  exact hread.bind fun b => Program.triple_pure fun s hs => ⟨bne_iff_ne.mpr hs.1, hs.2⟩

theorem triple_status_finish {reject : Bool} :
    Program.Triple (spec.Running 0 mem sd reject) bd.status
      (fun st s => (st.busy = false ∧ st.reject = reject) ∧ spec.Idle mem sd s) E := by
  have hread : Program.Triple (spec.Running 0 mem sd reject)
      (bd.write [cStat] >>= fun _ => bd.readByte "STATUS")
      (fun b s => (b &&& 1 = 0 ∧ (b &&& 4 != 0) = reject) ∧ spec.Idle mem sd s) E :=
    triple_readByte fun s hs => by
      obtain ⟨b, s', hanswer, hbusy, hreject, hidle⟩ := spec.finish hs
      exact ⟨b, s', hanswer, ⟨hbusy, hreject⟩, hidle⟩
  refine hread.bind fun b => Program.triple_pure fun s hs => ⟨⟨?_, hs.1.2⟩, hs.2⟩
  rw [hs.1.1]
  rfl

/-- A board that has nothing to do is never found busy. -/
theorem triple_awaitBusy_idle (looks : ℕ) :
    Program.Triple (spec.Idle mem sd) (bd.awaitBusy looks) (fun left _ => left = 0) E := by
  induction looks with
  | zero => exact Program.triple_pure fun _ _ => rfl
  | succ looks ih =>
    refine (triple_status_idle spec).bind fun st => Program.triple_and fun hbusy => ?_
    exact Program.triple_ite (fun h => by rw [hbusy] at h; cases h) fun _ => ih

/-- The second loop has time left only where the operation was found busy. -/
theorem triple_awaitBusy {n : ℕ} {reject : Bool} (looks : ℕ) :
    Program.Triple (spec.Running n mem sd reject) (bd.awaitBusy looks)
      (fun left s => left = 0 ∨ ∃ n, spec.Running n mem sd reject s) E := by
  cases looks with
  | zero => exact Program.triple_pure fun _ _ => .inl rfl
  | succ looks =>
    cases n with
    | zero =>
      refine (triple_status_finish spec).bind fun st => Program.triple_and fun hst => ?_
      refine Program.triple_ite (fun h => by rw [hst.1] at h; cases h) fun _ => ?_
      exact (triple_awaitBusy_idle spec looks).conseq (fun _ hs => hs) fun _ _ => .inl
    | succ n =>
      refine (triple_status_busy spec).bind fun st => Program.triple_and fun hbusy => ?_
      exact Program.triple_ite (fun _ => Program.triple_pure fun s hs => .inr ⟨n, hs⟩)
        fun h => absurd hbusy h

theorem triple_awaitIdle {n : ℕ} {reject : Bool} (what : String) (looks : ℕ) :
    Program.Triple (spec.Running n mem sd reject) (bd.awaitIdle what looks)
      (fun st s => st.reject = reject ∧ spec.Idle mem sd s) fun e _ => Excused lossy e := by
  induction looks generalizing n with
  | zero => exact Program.triple_fail fun _ _ => trivial
  | succ looks ih =>
    cases n with
    | zero =>
      refine (triple_status_finish spec).bind fun st => Program.triple_and fun hst => ?_
      refine Program.triple_ite (fun _ => Program.triple_pure fun s hs => ⟨hst.2, hs⟩) fun h => ?_
      rw [hst.1] at h
      exact absurd rfl h
    | succ n =>
      refine (triple_status_busy spec).bind fun st => Program.triple_and fun hbusy => ?_
      exact Program.triple_ite (fun h => by rw [hbusy] at h; cases h) fun _ => ih

/-- **An operation** that `run` returns from has been done. -/
theorem triple_run (op : Op) (looks : ℕ) :
    Program.Triple (spec.Idle mem sd) (bd.run op looks)
      (fun st s => ∃ mem', OpEffect kem op sd mem mem' st.reject ∧ spec.Idle mem' sd s)
      fun e _ => Excused lossy e := by
  have hstart : Program.Triple (spec.Idle mem sd)
      (bd.write [op.cmd] >>= fun _ => bd.expect op.cmd ("START " ++ op.what))
      (fun _ s => ∃ mem', ∃ reject, OpEffect kem op sd mem mem' reject ∧
        ∃ n, spec.Running n mem' sd reject s) (fun e _ => Excused lossy e) := by
    apply triple_expect
    intro s hs
    obtain ⟨n, mem', reject, s', hanswer, heffect, hrunning⟩ := spec.start op hs
    exact ⟨s', hanswer, mem', reject, heffect, n, hrunning⟩
  refine hstart.bind fun _ => Program.triple_exists fun mem' => Program.triple_exists fun reject =>
    Program.triple_and fun heffect => Program.triple_exists fun n => ?_
  refine (triple_awaitBusy spec looks).bind fun left => ?_
  cases left with
  | zero => exact Program.triple_fail fun _ _ => trivial
  | succ left =>
    have hwait : Program.Triple (fun s => ∃ n, spec.Running n mem' sd reject s)
        (bd.awaitIdle op.what (left + 1))
        (fun st s => st.reject = reject ∧ spec.Idle mem' sd s) fun e _ => Excused lossy e :=
      Program.triple_exists fun n => triple_awaitIdle spec op.what (left + 1)
    refine hwait.conseq (fun s hs => hs.resolve_left (Nat.succ_ne_zero left)) ?_
    rintro st s ⟨rfl, hidle⟩
    exact ⟨mem', heffect, hidle⟩

end Board

end SecureWan.KeyExchange
