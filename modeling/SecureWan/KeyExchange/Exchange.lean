import SecureWan.KeyExchange.Board

/-!
# The key exchange

`main` of `host_kex.py`: Alice's board makes a key pair, Bob encapsulates a secret, on a second
board or in software, and Alice's board decapsulates it. The exchange over the serial lines does
what the mechanism does by itself, also where the lines lose bytes.
-/

namespace SecureWan.KeyExchange

/-- What `main` tells at the end. -/
inductive Outcome
  /-- `ERROR: ek[768:800] is all zeros`. -/
  | rhoMissing
  /-- `PASS`: both sides hold the same secret. -/
  | agreed
  /-- `PASS -- TAMPERED CIPHERTEXT REJECTED`. -/
  | rejected
  /-- `FAIL -- tampering was not detected`. -/
  | undetected
  /-- `FAIL -- the two secrets differ`. -/
  | differ
deriving DecidableEq

/-- The code that `main` returns. -/
def Outcome.rc : Outcome → ℕ
  | .rhoMissing => 1
  | .agreed => 0
  | .rejected => 0
  | .undetected => 1
  | .differ => 1

/-- `bad[100] ^= 0x01`. -/
def flipBit (c : Bytes) : Bytes := c.set 100 (c.byteAt 100 ^^^ 1)

/-- The result. -/
def judge (tamper : Bool) (kAlice kBob : Bytes) (reject : Bool) : Outcome :=
  if tamper then
    if kAlice ≠ kBob ∧ reject then .rejected else .undetected
  else if kAlice = kBob then .agreed
  else .differ

/-- Bob: a second board, or a library. -/
inductive Bob (τ : Type)
  | board (bd : Board τ)
  | software (encaps : Bytes → Bytes → Bytes × Bytes)

/-- How often `run` finds time left on the clock. -/
structure Looks where
  keyGen : ℕ
  encaps : ℕ
  decaps : ℕ

section Main

variable {σ τ : Type}

/-- `alice.ping()`, and `bob.ping()` where Bob is a board. -/
def pings (alice : Board σ) : Bob τ → Host (σ × τ) Unit
  | .board bob => do
    (alice.ping 3).onFst
    (bob.ping 3).onSnd
  | .software _ => (alice.ping 3).onFst

/-- Alice's key generation, which gives `ek`. -/
def aliceKeyGen (alice : Board σ) (looks : ℕ) (d z : Bytes) : Host σ Bytes := do
  alice.softReset
  alice.seed d
  alice.wrVerified zBase z "z"
  let _ ← alice.run .keyGen looks
  let _ ← alice.cycles
  alice.rdBlock ekBase 800

/-- Bob's encapsulation on a board, which gives his secret and the ciphertext. -/
def bobEncaps (bob : Board τ) (looks : ℕ) (ek m : Bytes) : Host τ (Bytes × Bytes) := do
  bob.softReset
  bob.wrVerified ekBase ek "ek"
  bob.wrVerified msgBase m "m"
  let _ ← bob.run .encaps looks
  let _ ← bob.cycles
  let c ← bob.rdBlock ctBase 768
  let kBob ← bob.rdBlock ssBase 32
  pure (kBob, c)

/-- Bob's encapsulation. -/
def encaps (bob : Bob τ) (looks : ℕ) (ek m : Bytes) : Host (σ × τ) (Bytes × Bytes) :=
  match bob with
  | .board bob => (bobEncaps bob looks ek m).onSnd
  | .software encaps => pure (encaps ek m)

/-- Alice's decapsulation, which gives her secret and `st['reject']`. -/
def aliceDecaps (alice : Board σ) (looks : ℕ) (c : Bytes) : Host σ (Bytes × Bool) := do
  alice.wrVerified ctBase c "c"
  alice.wrVerified (zBase + 32) c "c for J(z||c)"
  let st ← alice.run .decaps looks
  let _ ← alice.cycles
  let kAlice ← alice.rdBlock ssBase 32
  pure (kAlice, st.reject)

/-- `main`, from the first command on, with the random bytes. -/
def main (alice : Board σ) (bob : Bob τ) (looks : Looks) (tamper : Bool) (d z m : Bytes) :
    Host (σ × τ) Outcome := do
  pings alice bob
  let ek ← (aliceKeyGen alice looks.keyGen d z).onFst
  if ek.drop 768 = List.replicate 32 0 then pure .rhoMissing
  else
    let (kBob, c) ← encaps bob looks.encaps ek m
    let c := if tamper then flipBit c else c
    let (kAlice, reject) ← (aliceDecaps alice looks.decaps c).onFst
    pure (judge tamper kAlice kBob reject)

end Main

/-- The exchange without boards: the mechanism by itself. -/
def idealExchange (kem : Kem) (tamper : Bool) (d z m : Bytes) : Outcome :=
  let kp := kem.keyGen d z
  if kp.ek.drop 768 = List.replicate 32 0 then .rhoMissing
  else
    let (kBob, c) := kem.encaps kp.ek m
    let c := if tamper then flipBit c else c
    let (kAlice, reject) := kem.decaps kp z c
    judge tamper kAlice kBob reject

/-! ### What the parts do -/

section Parts

variable {σ : Type} {bd : Board σ} {kem : Kem} {lossy : Prop} {mem sd : Memory}

/-- Two memories agree in a block that lies aside from another one. -/
theorem read_of_outside {mem mem' : Memory} {addr len off n : ℕ}
    (h : ∀ k, k < addr ∨ addr + len ≤ k → mem' k = mem k)
    (hdisjoint : off + n ≤ addr ∨ addr + len ≤ off) : mem'.read off n = mem.read off n :=
  Memory.read_congr fun i hi => h (off + i) (by omega)

/-- A board with a key pair and `z` in its memory. -/
def Holds {port : SerialPort σ} (spec : BoardSpec port kem lossy) (kp : KeyPair) (z : Bytes)
    (s : σ) : Prop :=
  ∃ mem, (keyPair mem = kp ∧ mem.read zBase 32 = z) ∧ ∃ sd, spec.Idle mem sd s

/-- A board between two commands. -/
def Ready {port : SerialPort σ} (spec : BoardSpec port kem lossy) (s : σ) : Prop :=
  ∃ mem sd, spec.Idle mem sd s

/-- **Key generation.** Alice's memory holds a key pair for a seed, the one that was sent where
nothing is lost, and `z`. -/
theorem triple_aliceKeyGen (spec : BoardSpec bd.port kem lossy) (looks : ℕ) {d z : Bytes}
    (hd : d.length = 32) (hz : z.length = 32) :
    Program.Triple (Ready spec) (aliceKeyGen bd looks d z)
      (fun ek s => ∃ d', (ek = (kem.keyGen d' z).ek ∧ ek.length = 800 ∧ (¬lossy → d' = d)) ∧
        Holds spec (kem.keyGen d' z) z s)
      fun e _ => Excused lossy e := by
  refine Program.triple_exists fun mem => Program.triple_exists fun sd => ?_
  refine (Board.triple_softReset spec).bind fun _ => ?_
  refine (Board.triple_seedFrom spec d (by omega)).bind fun _ => Program.triple_exists fun sd' =>
    Program.triple_and fun hseed => ?_
  refine (Board.triple_wrVerified spec z "z" (by rw [hz]; decide)).bind fun _ =>
    Program.triple_exists fun mem₁ => Program.triple_and fun hstaged => ?_
  refine (Board.triple_run spec .keyGen looks).bind fun _ => Program.triple_exists fun mem₂ =>
    Program.triple_and fun heffect => ?_
  refine (Board.triple_cycles spec).bind fun _ => ?_
  refine (Board.triple_rdBlock spec (by decide)).conseq (fun _ hs => hs) ?_
  rintro ek s ⟨hek, hidle⟩
  have hstored : mem₁.read zBase 32 = z := by
    have hread := hstaged.1
    rwa [hz] at hread
  obtain ⟨hpair, hkept⟩ := heffect
  rw [hstored] at hpair hkept
  refine ⟨sd'.read 0 32, ⟨?_, ?_, fun hlossless => ?_⟩, mem₂, ⟨hpair, hkept⟩, sd', hidle⟩
  · rw [hek, ← hpair, keyPair]
  · rw [hek, Memory.length_read]
  · rw [hseed.2 hlossless, Memory.read_write_self hd]

/-- **Encapsulation** on a board is that of the mechanism. -/
theorem triple_bobEncaps (spec : BoardSpec bd.port kem lossy) (looks : ℕ) {ek m : Bytes}
    (hek : ek.length = 800) (hm : m.length = 32) :
    Program.Triple (Ready spec) (bobEncaps bd looks ek m)
      (fun r s => r = kem.encaps ek m ∧ Ready spec s) fun e _ => Excused lossy e := by
  refine Program.triple_exists fun mem => Program.triple_exists fun sd => ?_
  refine (Board.triple_softReset spec).bind fun _ => ?_
  refine (Board.triple_wrVerified spec ek "ek" (by rw [hek]; decide)).bind fun _ =>
    Program.triple_exists fun mem₁ => Program.triple_and fun hfirst => ?_
  refine (Board.triple_wrVerified spec m "m" (by rw [hm]; decide)).bind fun _ =>
    Program.triple_exists fun mem₂ => Program.triple_and fun hsecond => ?_
  refine (Board.triple_run spec .encaps looks).bind fun _ => Program.triple_exists fun mem₃ =>
    Program.triple_and fun heffect => ?_
  refine (Board.triple_cycles spec).bind fun _ => ?_
  refine (Board.triple_rdBlock spec (by decide)).bind fun c => Program.triple_and fun hc => ?_
  refine (Board.triple_rdBlock spec (by decide)).bind fun kBob => Program.triple_and fun hk => ?_
  refine Program.triple_pure fun s hs => ⟨?_, mem₃, sd, hs⟩
  -- the message is staged beside the key
  have hkey : mem₂.read ekBase 800 = ek := by
    rw [hm] at hsecond
    rw [read_of_outside hsecond.2 (by decide)]
    have hread := hfirst.1
    rwa [hek] at hread
  have hmsg : mem₂.read msgBase 32 = m := by
    have hread := hsecond.1
    rwa [hm] at hread
  rw [OpEffect, hkey, hmsg] at heffect
  rw [hc, hk, heffect]

/-- **Decapsulation.** The ciphertext is staged aside from the key pair and `z`. -/
theorem triple_aliceDecaps (spec : BoardSpec bd.port kem lossy) (looks : ℕ) {c z : Bytes}
    {kp : KeyPair} (hc : c.length = 768) :
    Program.Triple (Holds spec kp z) (aliceDecaps bd looks c)
      (fun r _ => r = kem.decaps kp z c) fun e _ => Excused lossy e := by
  refine Program.triple_exists fun mem => Program.triple_and fun ⟨hpair, hz⟩ =>
    Program.triple_exists fun sd => ?_
  refine (Board.triple_wrVerified spec c "c" (by rw [hc]; decide)).bind fun _ =>
    Program.triple_exists fun mem₁ => Program.triple_and fun hfirst => ?_
  refine (Board.triple_wrVerified spec c "c for J(z||c)" (by rw [hc]; decide)).bind fun _ =>
    Program.triple_exists fun mem₂ => Program.triple_and fun hsecond => ?_
  refine (Board.triple_run spec .decaps looks).bind fun st => Program.triple_exists fun mem₃ =>
    Program.triple_and fun heffect => ?_
  refine (Board.triple_cycles spec).bind fun _ => ?_
  refine (Board.triple_rdBlock spec (by decide)).bind fun kAlice =>
    Program.triple_and fun hk => Program.triple_pure fun s _ => ?_
  rw [hc] at hfirst hsecond
  have hsame {off n : ℕ} (hct : off + n ≤ ctBase ∨ ctBase + 768 ≤ off)
      (hz : off + n ≤ zBase + 32 ∨ zBase + 32 + 768 ≤ off) :
      mem₂.read off n = mem.read off n := by
    rw [read_of_outside hsecond.2 hz, read_of_outside hfirst.2 hct]
  have hkept : keyPair mem₂ = kp := by
    rw [← hpair, keyPair, keyPair, hsame (by decide) (by decide), hsame (by decide) (by decide),
      hsame (by decide) (by decide)]
  have hstored : mem₂.read zBase 32 = z := by rw [hsame (by decide) (by decide), hz]
  have hct : mem₂.read ctBase 768 = c := by
    rw [read_of_outside hsecond.2 (by decide), hfirst.1]
  rw [OpEffect, hkept, hstored, hct] at heffect
  rw [hk, heffect hsecond.1]

end Parts

/-! ### The whole exchange -/

section Whole

variable {σ τ : Type} {alice : Board σ} {bob : Bob τ} {kem : Kem} {lossy : Prop}

/-- What a Bob in software, or on a board that is ready, keeps to. -/
inductive BobSpec (kem : Kem) (lossy : Prop) : Bob τ → (τ → Prop) → Type
  | board {bd : Board τ} (spec : BoardSpec bd.port kem lossy) :
    BobSpec kem lossy (.board bd) (Ready spec)
  | software : BobSpec kem lossy (.software kem.encaps) fun _ => True

variable {ready : τ → Prop}

theorem triple_pings (spec : BoardSpec alice.port kem lossy)
    (bobSpec : BobSpec kem lossy bob ready) :
    Program.Triple (fun s => Ready spec s.1 ∧ ready s.2) (pings alice bob)
      (fun _ s => Ready spec s.1 ∧ ready s.2) fun e _ => Excused lossy e := by
  have hping {ρ : Type} {bd : Board ρ} (spec : BoardSpec bd.port kem lossy) :
      Program.Triple (Ready spec) (bd.ping 3) (fun _ => Ready spec) fun e _ => Excused lossy e :=
    Program.triple_exists fun mem => Program.triple_exists fun sd =>
      (Board.triple_ping spec 3).conseq (fun _ hs => hs) fun _ s hs => ⟨mem, sd, hs⟩
  cases bobSpec with
  | board bobSpec => exact (hping spec).onFst.bind fun _ => (hping bobSpec).onSnd
  | software => exact (hping spec).onFst (T := fun _ => True)

theorem triple_encaps {T : σ → Prop} (bobSpec : BobSpec kem lossy bob ready) (looks : ℕ)
    {ek m : Bytes} (hek : ek.length = 800) (hm : m.length = 32) :
    Program.Triple (fun s => T s.1 ∧ ready s.2) (encaps bob looks ek m)
      (fun r s => r = kem.encaps ek m ∧ T s.1) fun e _ => Excused lossy e := by
  cases bobSpec with
  | board bobSpec =>
    exact (triple_bobEncaps bobSpec looks hek hm).onSnd.conseq (fun _ hs => hs)
      fun _ _ hs => ⟨hs.2.1, hs.1⟩
  | software => exact Program.triple_pure fun s hs => ⟨rfl, hs.1⟩

theorem length_flipBit (c : Bytes) : (flipBit c).length = c.length := List.length_set ..

/-- **The exchange is that of the mechanism.** Over lines that may lose what is written, a result
is the one that the mechanism has by itself for some seed, and for the seed that was drawn where
nothing is lost; otherwise a lost byte was found when it was read back, or an operation took too
long. So the host tells that the secrets differ only when the mechanism itself fails. -/
theorem main_refines (spec : BoardSpec alice.port kem lossy) (bobSpec : BobSpec kem lossy bob ready)
    (looks : Looks) (tamper : Bool) {d z m : Bytes} (hd : d.length = 32) (hz : z.length = 32)
    (hm : m.length = 32) :
    Program.Triple (fun s => Ready spec s.1 ∧ ready s.2) (main alice bob looks tamper d z m)
      (fun o _ => ∃ d', o = idealExchange kem tamper d' z m ∧ (¬lossy → d' = d))
      fun e _ => Excused lossy e := by
  refine (triple_pings spec bobSpec).bind fun _ => ?_
  have hkeyGen := (triple_aliceKeyGen spec looks.keyGen hd hz).onFst (T := ready)
  refine (hkeyGen.conseq (fun _ hs => hs) fun ek s hs => ?_ : Program.Triple _ _ (fun ek s => ∃ d',
    (ek = (kem.keyGen d' z).ek ∧ ek.length = 800 ∧ (¬lossy → d' = d)) ∧
      Holds spec (kem.keyGen d' z) z s.1 ∧ ready s.2) _).bind fun ek =>
    Program.triple_exists fun d' => Program.triple_and fun ⟨hek, hlen, hseed⟩ => ?_
  · obtain ⟨⟨d', hfacts, hholds⟩, hready⟩ := hs
    exact ⟨d', hfacts, hholds, hready⟩
  · refine Program.triple_ite (fun hrho => Program.triple_pure fun _ _ => ⟨d', ?_, hseed⟩)
      fun hrho => ?_
    · rw [hek] at hrho
      rw [idealExchange, if_pos hrho]
    · refine (triple_encaps bobSpec looks.encaps hlen hm).bind fun r =>
        Program.triple_and fun hr => ?_
      subst hr
      have hct : (if tamper then flipBit (kem.encaps ek m).2 else (kem.encaps ek m).2).length =
          768 := by
        split
        · rw [length_flipBit, kem.length_ciphertext]
        · exact kem.length_ciphertext ek m
      refine ((triple_aliceDecaps spec looks.decaps hct).onFst (T := fun _ => True)).conseq
        (fun s hs => ⟨hs, trivial⟩) (fun _ _ hs => hs) |>.bind fun k =>
          Program.triple_and fun hk => ?_
      refine Program.triple_pure fun _ _ => ⟨d', ?_, hseed⟩
      rw [hek] at hrho
      rw [idealExchange, if_neg hrho, hk, hek]

end Whole

/-! ### A board in software -/

def openPair : KeyPair := ⟨List.replicate 800 1, List.replicate 768 0, List.replicate 32 0⟩

/-- A mechanism that keeps nothing secret. -/
def openKem : Kem where
  keyGen _ _ := openPair
  encaps _ m := (m, (m ++ List.replicate 768 0).take 768)
  decaps _ _ c := (c.take 32, false)
  length_ciphertext _ m := by
    rw [List.length_take, List.length_append, List.length_replicate]
    omega

theorem length_secret_openKem {ek m : Bytes} (hm : m.length = 32) :
    (openKem.encaps ek m).1.length = 32 := hm

/-- The memories of a board, the looks that find its operation busy, and the next answer. -/
structure SimBoard where
  mem : Memory
  sd : Memory
  looks : ℕ
  reply : UInt8

namespace SimBoard

/-- What an operation leaves in the memory. -/
def result (mem : Memory) : Op → Memory
  | .keyGen =>
    ((mem.write ekBase openPair.ek).write dkBase openPair.dkPke).write hekBase openPair.hek
  | .encaps =>
    let r := openKem.encaps (mem.read ekBase 800) (mem.read msgBase 32)
    (mem.write ssBase r.1).write ctBase r.2
  | .decaps => mem.write ssBase ((mem.read ctBase 768).take 32)

/-- An operation, which is found busy once. -/
def perform (s : SimBoard) (op : Op) : SimBoard :=
  { s with mem := result s.mem op, looks := 1, reply := op.cmd }

/-- A command. -/
def receive (bs : Bytes) (s : SimBoard) : SimBoard :=
  if bs = [cPing] then { s with reply := pingR }
  else if bs = [cRst] then { s with reply := cRst }
  else if bs = [cCyc] then { s with reply := 0 }
  else if bs = [cStat] then
    { s with looks := s.looks - 1, reply := if s.looks = 0 then 0 else 1 }
  else if bs = [Op.keyGen.cmd] then s.perform .keyGen
  else if bs = [Op.encaps.cmd] then s.perform .encaps
  else if bs = [Op.decaps.cmd] then s.perform .decaps
  else
    let addr := (bs.byteAt 1).toNat + 256 * (bs.byteAt 2).toNat
    if bs.byteAt 0 = cWr then { s with mem := s.mem.write addr [bs.byteAt 3], reply := cWr }
    else if bs.byteAt 0 = cRd then { s with reply := s.mem addr }
    else { s with sd := s.sd.write (bs.byteAt 1).toNat [bs.byteAt 2], reply := cSeed }

/-- The serial port of the board. -/
def port : SerialPort SimBoard where
  write := receive
  read1 s := (some s.reply, s)
  resetInputBuffer s := s
  sleep _ s := s

/-- The board as the host has it. -/
def board (name : String) : Board SimBoard := ⟨name, port⟩

/-- The board between two commands. -/
structure IsIdle (mem sd : Memory) (s : SimBoard) : Prop where
  mem_eq : s.mem = mem
  sd_eq : s.sd = sd
  looks_eq : s.looks = 0

/-- The board with an operation. -/
structure IsRunning (n : ℕ) (mem sd : Memory) (reject : Bool) (s : SimBoard) : Prop where
  mem_eq : s.mem = mem
  sd_eq : s.sd = sd
  looks_eq : s.looks = n
  reject_eq : reject = false

theorem toNat_addrBytes {addr : ℕ} (h : addr < 8192) :
    (UInt8.ofNat addr).toNat + 256 * (UInt8.ofNat (addr >>> 8)).toNat = addr := by
  rw [UInt8.toNat_ofNat', UInt8.toNat_ofNat', Nat.shiftRight_eq_div_pow]
  omega

theorem read_result_encaps {mem : Memory} {r : Bytes × Bytes} (hsecret : r.1.length = 32)
    (hct : r.2.length = 768) :
    (((mem.write ssBase r.1).write ctBase r.2).read ssBase 32,
      ((mem.write ssBase r.1).write ctBase r.2).read ctBase 768) = r := by
  rw [Memory.read_write_self hct, Memory.read_write_of_disjoint, Memory.read_write_self hsecret]
  rw [hct]
  decide

theorem keyPair_write {mem : Memory} {kp : KeyPair} (hek : kp.ek.length = 800)
    (hdk : kp.dkPke.length = 768) (hhek : kp.hek.length = 32) :
    keyPair (((mem.write ekBase kp.ek).write dkBase kp.dkPke).write hekBase kp.hek) = kp := by
  have hread_ek : (((mem.write ekBase kp.ek).write dkBase kp.dkPke).write hekBase kp.hek).read
      ekBase 800 = kp.ek := by
    rw [Memory.read_write_of_disjoint (by rw [hhek]; decide),
      Memory.read_write_of_disjoint (by rw [hdk]; decide), Memory.read_write_self hek]
  have hread_dk : (((mem.write ekBase kp.ek).write dkBase kp.dkPke).write hekBase kp.hek).read
      dkBase 768 = kp.dkPke := by
    rw [Memory.read_write_of_disjoint (by rw [hhek]; decide), Memory.read_write_self hdk]
  rw [keyPair, hread_ek, hread_dk, Memory.read_write_self hhek]

theorem read_z_write {mem : Memory} {kp : KeyPair} (hek : kp.ek.length = 800)
    (hdk : kp.dkPke.length = 768) (hhek : kp.hek.length = 32) :
    (((mem.write ekBase kp.ek).write dkBase kp.dkPke).write hekBase kp.hek).read zBase 32 =
      mem.read zBase 32 := by
  rw [Memory.read_write_of_disjoint (by rw [hhek]; decide),
    Memory.read_write_of_disjoint (by rw [hdk]; decide),
    Memory.read_write_of_disjoint (by rw [hek]; decide)]

theorem opEffect_result (sd mem : Memory) (op : Op) :
    OpEffect openKem op sd mem (result mem op) false := by
  cases op with
  | keyGen =>
    exact ⟨keyPair_write List.length_replicate List.length_replicate
      List.length_replicate, read_z_write List.length_replicate
      List.length_replicate List.length_replicate⟩
  | encaps =>
    have hsecret : (openKem.encaps (mem.read ekBase 800) (mem.read msgBase 32)).1.length = 32 :=
      length_secret_openKem Memory.length_read
    have hct := openKem.length_ciphertext (mem.read ekBase 800) (mem.read msgBase 32)
    rw [OpEffect, result]
    exact read_result_encaps hsecret hct
  | decaps =>
    intro _
    rw [result, Memory.read_write_self]
    · rfl
    · rw [List.length_take, Memory.length_read]
      decide

/-- A command with an address. -/
theorem receive_addr {c : UInt8} {addr : ℕ} {rest : Bytes} (h : addr < 8192) (s : SimBoard) :
    receive (c :: addrBytes addr ++ rest) s =
      if c = cWr then { s with mem := s.mem.write addr [rest.byteAt 0], reply := cWr }
      else if c = cRd then { s with reply := s.mem addr }
      else { s with
        sd := s.sd.write (UInt8.ofNat addr).toNat [UInt8.ofNat (addr >>> 8)], reply := cSeed } := by
  have haddr := toNat_addrBytes h
  simp only [receive, addrBytes, List.cons_append, List.nil_append, List.cons.injEq, reduceCtorEq,
    and_false, if_false, Bytes.byteAt, List.getD_cons_zero, List.getD_cons_succ, haddr]

theorem answer_board (name : String) (s : SimBoard) (bs : Bytes) :
    (board name).port.answer s bs = (some (receive bs s).reply, receive bs s) := rfl

/-- A look at the status. -/
theorem receive_cStat (s : SimBoard) : receive [cStat] s =
    { s with looks := s.looks - 1, reply := if s.looks = 0 then 0 else 1 } := rfl

/-- The board keeps to its specification, and loses nothing. -/
def spec (name : String) : BoardSpec (board name).port openKem False where
  Idle := IsIdle
  Running := IsRunning
  reset h := h
  sleep _ h := h
  ping h := ⟨_, rfl, h.mem_eq, h.sd_eq, h.looks_eq⟩
  wr {mem sd s addr} b haddr h := by
    refine ⟨{ s with mem := s.mem.write addr [b], reply := cWr }, mem.write addr [b], ?_,
      ⟨?_, h.sd_eq, h.looks_eq⟩, .inl rfl⟩
    · rw [answer_board, receive_addr haddr]
      rfl
    · rw [h.mem_eq]
  rd {mem sd s addr} haddr h := by
    refine ⟨{ s with reply := s.mem addr }, ?_, h.mem_eq, h.sd_eq, h.looks_eq⟩
    have hreceive : receive (cRd :: addrBytes addr ++ []) s = { s with reply := s.mem addr } :=
      receive_addr haddr s
    rw [List.append_nil] at hreceive
    rw [answer_board, hreceive, h.mem_eq]
  seed {mem sd s i} b hi h := by
    refine ⟨{ s with sd := s.sd.write i [b], reply := cSeed }, sd.write i [b], ?_,
      ⟨h.mem_eq, ?_, h.looks_eq⟩, .inl rfl⟩
    · have hi' : (UInt8.ofNat i).toNat = i := by
        rw [UInt8.toNat_ofNat', Nat.mod_eq_of_lt (by omega)]
      have hreceive : receive [cSeed, UInt8.ofNat i, b] s =
          { s with sd := s.sd.write (UInt8.ofNat i).toNat [b], reply := cSeed } := rfl
      rw [answer_board, hreceive, hi']
    · rw [h.sd_eq]
  softReset h := ⟨_, rfl, h.mem_eq, h.sd_eq, h.looks_eq⟩
  cycles h := ⟨0, _, rfl, h.mem_eq, h.sd_eq, h.looks_eq⟩
  idle {mem sd s} h := by
    refine ⟨0, { s with looks := 0, reply := 0 }, ?_, rfl, h.mem_eq, h.sd_eq, rfl⟩
    rw [answer_board, receive_cStat, h.looks_eq]
    rfl
  start {mem sd s} op h := by
    refine ⟨1, result mem op, false, s.perform op, ?_, opEffect_result sd mem op, ?_, h.sd_eq,
      rfl, rfl⟩
    · cases op <;> rfl
    · rw [perform, h.mem_eq]
  busy {n mem sd reject s} h := by
    refine ⟨1, { s with looks := n, reply := 1 }, ?_, by decide, h.mem_eq, h.sd_eq, rfl,
      h.reject_eq⟩
    rw [answer_board, receive_cStat, h.looks_eq]
    rfl
  finish {mem sd reject s} h := by
    refine ⟨0, { s with looks := 0, reply := 0 }, ?_, rfl, ?_, h.mem_eq, h.sd_eq, rfl⟩
    · rw [answer_board, receive_cStat, h.looks_eq]
      rfl
    · rw [h.reject_eq]
      rfl

end SimBoard

/-- Two boards that lose nothing. -/
theorem main_refines_simulated :
    Program.Triple
      (fun s => Ready (SimBoard.spec "ALICE") s.1 ∧ Ready (SimBoard.spec "BOB") s.2)
      (main (SimBoard.board "ALICE") (.board (SimBoard.board "BOB")) ⟨9, 9, 9⟩ true
        (List.replicate 32 1) (List.replicate 32 2) (List.replicate 32 3))
      (fun o _ => ∃ d', o = idealExchange openKem true d' (List.replicate 32 2)
        (List.replicate 32 3) ∧ (¬False → d' = List.replicate 32 1))
      fun e _ => Excused False e :=
  main_refines (SimBoard.spec "ALICE") (.board (SimBoard.spec "BOB")) ⟨9, 9, 9⟩ true rfl rfl rfl

end SecureWan.KeyExchange
