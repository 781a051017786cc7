import SecureWan.KeyExchange.Exchange

/-!
# The published vectors

`host_nist.py` gives the inputs of published vectors to a board and compares what comes back with
their outputs. It reads nothing back that it writes, so the line has to lose nothing. Then `PASS`
says that the mechanism in the board yields the outputs of every vector selected.
-/

namespace SecureWan.KeyExchange.Nist

/-- A vector for the key generation; what the file has in hex is bytes here. -/
structure KeyGenVector where
  d : Bytes
  z : Bytes
  ek : Bytes
  dk : Bytes

/-- A vector for the decapsulation. -/
structure DecapsVector where
  dk : Bytes
  c : Bytes
  k : Bytes

/-- The vectors of the file. -/
structure Vectors where
  keygen : List KeyGenVector
  decaps : List DecapsVector

/-- What is printed about a vector. -/
inductive Verdict
  | timedOut
  | keyGen (ekOk dkOk : Bool)
  | decaps (good : Bool)
deriving DecidableEq

/-- `good`. -/
def Verdict.good : Verdict → Bool
  | .timedOut => false
  | .keyGen ekOk dkOk => ekOk && dkOk
  | .decaps good => good

/-- `ok == len(vecs)`. -/
def passed (rs : List Verdict) : Bool := rs.countP Verdict.good == rs.length

/-- The first argument behind the port. -/
inductive Mode
  | keygen
  | decaps
  | all
  | other (text : String)

/-- `mode in ("keygen", "all")`. -/
def Mode.testsKeyGen : Mode → Bool
  | .keygen | .all => true
  | _ => false

/-- `mode in ("decaps", "all")`. -/
def Mode.testsDecaps : Mode → Bool
  | .decaps | .all => true
  | _ => false

/-- An end of a slice: negative ones count from behind. -/
def sliceEnd (len : ℕ) (i : ℤ) : ℕ := if i < 0 then (len + i).toNat else min i.toNat len

/-- `vecs[k][only:only+1]`. -/
def sliceOne {α : Type} (l : List α) (only : ℤ) : List α :=
  (l.take (sliceEnd l.length (only + 1))).drop (sliceEnd l.length only)

/-- The vectors that are left by the index in the arguments. -/
def Vectors.select (vecs : Vectors) : Option ℤ → Vectors
  | none => vecs
  | some only => ⟨sliceOne vecs.keygen only, sliceOne vecs.decaps only⟩

/-- `TimeoutError`. -/
def isTimeout : HostError → Bool
  | .noReply _ _ => true
  | .timedOut _ _ => true
  | _ => false

/-- The parts of a decapsulation key. -/
def splitDk (dk : Bytes) : KeyPair × Bytes :=
  (⟨(dk.drop 768).take 800, dk.take 768, (dk.drop 1568).take 32⟩, (dk.drop 1600).take 32)

/-- A decapsulation key from its parts. -/
def joinDk (kp : KeyPair) (z : Bytes) : Bytes := kp.dkPke ++ kp.ek ++ kp.hek ++ z

section Tests

variable {σ : Type} (bd : Board σ)

/-- `soft_reset`. -/
def softReset : Host σ Unit := do
  bd.write [cRst]
  bd.expect cRst "SOFT RESET"
  bd.sleep 50

/-- What is tried behind a timeout. -/
def recover : Host σ Unit :=
  Program.orElse (do
    .ofFun fun s => ((), bd.port.resetInputBuffer s)
    softReset bd) (pure ())

/-- The body of the loop of `test_keygen`, with the looks that `run` has. -/
def testKeyGenOne (looks : ℕ) (v : KeyGenVector) : Host σ Verdict := do
  bd.sleep 100
  softReset bd
  bd.seed v.d
  bd.wrBlock zBase v.z
  let done ← Program.catchIf isTimeout
    (do let _ ← bd.run .keyGen looks; pure true) (do recover bd; pure false)
  if done then
    let ek ← bd.rdBlock ekBase 800
    let dkPke ← bd.rdBlock dkBase 768
    let hek ← bd.rdBlock hekBase 32
    pure (.keyGen (ek == v.ek) (joinDk ⟨ek, dkPke, hek⟩ v.z == v.dk))
  else pure .timedOut

/-- The loop of `test_keygen`, from a position on. -/
def testKeyGenFrom (looks : ℕ → ℕ) (i : ℕ) : List KeyGenVector → Host σ (List Verdict)
  | [] => pure []
  | v :: vecs => do
    let r ← testKeyGenOne bd (looks i) v
    let rs ← testKeyGenFrom looks (i + 1) vecs
    pure (r :: rs)

/-- The body of the loop of `test_decaps`. -/
def testDecapsOne (looks : ℕ) (v : DecapsVector) : Host σ Verdict := do
  bd.sleep 100
  softReset bd
  let (kp, z) := splitDk v.dk
  bd.wrBlock dkBase kp.dkPke
  bd.wrBlock ekBase kp.ek
  bd.wrBlock hekBase kp.hek
  bd.wrBlock zBase z
  bd.wrBlock (zBase + 32) v.c
  bd.wrBlock ctBase v.c
  let _ ← bd.run .decaps looks
  let k ← bd.rdBlock ssBase 32
  pure (.decaps (k == v.k))

/-- The loop of `test_decaps`, from a position on. -/
def testDecapsFrom (looks : ℕ → ℕ) (i : ℕ) : List DecapsVector → Host σ (List Verdict)
  | [] => pure []
  | v :: vecs => do
    let r ← testDecapsOne bd (looks i) v
    let rs ← testDecapsFrom looks (i + 1) vecs
    pure (r :: rs)

/-- `results.append`, when a test is asked for. -/
def appendIf (wanted : Bool) (test : Host σ (List Verdict)) : Host σ (List (List Verdict)) :=
  if wanted then do
    let rs ← test
    pure [rs]
  else pure []

/-- The code that `main` returns. -/
def rc (results : List (List Verdict)) : ℕ := if results.all passed then 0 else 1

/-- `main`, from the first command on: what is printed about the vectors, for each test. -/
def main (mode : Mode) (only : Option ℤ) (vecs : Vectors) (keyGenLooks decapsLooks : ℕ → ℕ) :
    Host σ (List (List Verdict)) := do
  bd.ping 3
  let first ← appendIf mode.testsKeyGen
    (testKeyGenFrom bd keyGenLooks 0 (vecs.select only).keygen)
  let second ← appendIf mode.testsDecaps
    (testDecapsFrom bd decapsLooks 0 (vecs.select only).decaps)
  pure (first ++ second)

end Tests

/-! ### The mechanism by itself -/

/-- What the mechanism yields for a vector, compared with its outputs. -/
def idealKeyGen (kem : Kem) (v : KeyGenVector) : Verdict :=
  .keyGen ((kem.keyGen v.d v.z).ek == v.ek) (joinDk (kem.keyGen v.d v.z) v.z == v.dk)

def idealDecaps (kem : Kem) (v : DecapsVector) : Verdict :=
  .decaps ((kem.decaps (splitDk v.dk).1 (splitDk v.dk).2 v.c).1 == v.k)

/-- The inputs of the vectors have their lengths. -/
structure Vectors.WellFormed (vecs : Vectors) : Prop where
  keygen : ∀ v ∈ vecs.keygen, v.d.length = 32 ∧ v.z.length = 32
  decaps : ∀ v ∈ vecs.decaps, v.dk.length = 1632 ∧ v.c.length = 768

/-- The mechanism yields the outputs of all vectors that a mode tests. -/
structure Conforms (kem : Kem) (mode : Mode) (vecs : Vectors) : Prop where
  keygen : mode.testsKeyGen = true → ∀ v ∈ vecs.keygen,
    (kem.keyGen v.d v.z).ek = v.ek ∧ joinDk (kem.keyGen v.d v.z) v.z = v.dk
  decaps : mode.testsDecaps = true → ∀ v ∈ vecs.decaps,
    (kem.decaps (splitDk v.dk).1 (splitDk v.dk).2 v.c).1 = v.k

theorem passed_iff {rs : List Verdict} : passed rs = true ↔ ∀ r ∈ rs, r.good = true := by
  rw [passed, beq_iff_eq, List.countP_eq_length]

/-- A timeout is never passed over. -/
theorem not_passed_of_timedOut {rs : List Verdict} (h : .timedOut ∈ rs) : passed rs = false := by
  rw [Bool.eq_false_iff, Ne, passed_iff]
  intro hall
  exact Bool.false_ne_true (hall .timedOut h)

/-- The memory with a decapsulation key and a ciphertext in it. -/
def staged (mem : Memory) (kp : KeyPair) (z c : Bytes) : Memory :=
  (((((mem.write dkBase kp.dkPke).write ekBase kp.ek).write hekBase kp.hek).write zBase z).write
    (zBase + 32) c).write ctBase c

/-! ### The tests -/

section Runs

variable {σ : Type} {bd : Board σ} {kem : Kem} {E : HostError → σ → Prop} {mem sd : Memory}

theorem triple_softReset {lossy : Prop} (spec : BoardSpec bd.port kem lossy) :
    Program.Triple (spec.Idle mem sd) (softReset bd) (fun _ => spec.Idle mem sd) E := by
  have hreset : Program.Triple (spec.Idle mem sd)
      (bd.write [cRst] >>= fun _ => bd.expect cRst "SOFT RESET") (fun _ => spec.Idle mem sd) E :=
    Board.triple_expect fun s hs => spec.softReset hs
  have hsleep : Program.Triple (spec.Idle mem sd) (bd.sleep 50) (fun _ => spec.Idle mem sd) E :=
    Program.triple_ofFun fun s hs => spec.sleep 50 hs
  exact hreset.bind fun _ => hsleep

variable (spec : BoardSpec bd.port kem False)

include spec

/-- A block on a line that loses nothing. -/
theorem triple_wrBlock {addr : ℕ} (data : Bytes) (haddr : addr + data.length ≤ 8192) :
    Program.Triple (spec.Idle mem sd) (bd.wrBlock addr data)
      (fun _ s => spec.Idle (mem.write addr data) sd s) E := by
  refine (Board.triple_wrBlock spec data haddr).conseq (fun _ hs => hs) ?_
  rintro _ s ⟨mem', hwritten, hidle⟩
  rwa [hwritten.2 not_false] at hidle

theorem triple_seed {d : Bytes} (hd : d.length = 32) :
    Program.Triple (spec.Idle mem sd) (bd.seed d)
      (fun _ s => spec.Idle mem (sd.write 0 d) s) E := by
  refine (Board.triple_seedFrom spec d (by omega)).conseq (fun _ hs => hs) ?_
  rintro _ s ⟨sd', hwritten, hidle⟩
  rwa [hwritten.2 not_false] at hidle

/-- The pause in front of a vector. -/
theorem triple_pause (ms : ℕ) :
    Program.Triple (spec.Idle mem sd) (bd.sleep ms) (fun _ => spec.Idle mem sd) E :=
  Program.triple_ofFun fun _ hs => spec.sleep ms hs

omit spec in
/-- Whatever happens behind a timeout, the loop goes on. -/
theorem triple_recover (P : σ → Prop) :
    Program.Triple P (recover bd) (fun _ _ => True) E := by
  have htry := Program.triple_true P (do
    .ofFun fun st => ((), bd.port.resetInputBuffer st)
    softReset bd : Host σ Unit)
  exact htry.orElse (Program.triple_pure fun _ _ => trivial)

/-- **One vector for the key generation.** -/
theorem triple_testKeyGenOne (looks : ℕ) {v : KeyGenVector} (hd : v.d.length = 32)
    (hz : v.z.length = 32) :
    Program.Triple (Ready spec) (testKeyGenOne bd looks v)
      (fun r s => r = idealKeyGen kem v ∧ Ready spec s ∨ r = .timedOut) fun _ _ => True := by
  refine Program.triple_exists fun mem => Program.triple_exists fun sd => ?_
  refine (triple_pause spec 100).bind fun _ => ?_
  refine (triple_softReset spec).bind fun _ => ?_
  refine (triple_seed spec hd).bind fun _ => ?_
  refine (triple_wrBlock spec v.z (by rw [hz]; decide)).bind fun _ => ?_
  -- the operation is done, or given up after a timeout
  have hrun : Program.Triple (spec.Idle (mem.write zBase v.z) (sd.write 0 v.d))
      (Program.catchIf isTimeout (do let _ ← bd.run .keyGen looks; pure true)
        (do recover bd; pure false))
      (fun done s => done = true → ∃ mem',
        keyPair mem' = kem.keyGen v.d v.z ∧ ∃ sd', spec.Idle mem' sd' s) fun _ _ => True := by
    have hdone : Program.Triple (spec.Idle (mem.write zBase v.z) (sd.write 0 v.d))
        (do let _ ← bd.run .keyGen looks; pure true : Host σ Bool)
        (fun done s => done = true → ∃ mem',
          keyPair mem' = kem.keyGen v.d v.z ∧ ∃ sd', spec.Idle mem' sd' s)
        fun e _ => Excused False e := by
      refine (Board.triple_run spec .keyGen looks).bind fun st => Program.triple_pure ?_
      rintro s ⟨mem', ⟨hpair, -⟩, hidle⟩ -
      rw [Memory.read_write_self hd, Memory.read_write_self hz] at hpair
      exact ⟨mem', hpair, sd.write 0 v.d, hidle⟩
    refine hdone.catchIf ?_ fun _ _ _ _ => trivial
    refine (triple_recover _).bind fun _ => Program.triple_pure fun _ _ hfalse => ?_
    cases hfalse
  refine hrun.bind fun done => ?_
  cases done with
  | false => exact Program.triple_pure fun _ _ => .inr rfl
  | true =>
    refine (Program.triple_exists fun mem' => Program.triple_and fun hpair =>
      Program.triple_exists fun sd' => ?_ : Program.Triple (fun s => ∃ mem',
        keyPair mem' = kem.keyGen v.d v.z ∧ ∃ sd', spec.Idle mem' sd' s) _ _ _).conseq
        (fun _ hs => hs rfl) fun _ _ hq => hq
    refine (Board.triple_rdBlock spec (by decide)).bind fun ek => Program.triple_and fun hek => ?_
    refine (Board.triple_rdBlock spec (by decide)).bind fun dkPke =>
      Program.triple_and fun hdk => ?_
    refine (Board.triple_rdBlock spec (by decide)).bind fun hek' =>
      Program.triple_and fun hhek => ?_
    refine Program.triple_pure fun s hs => .inl ⟨?_, mem', sd', hs⟩
    have hparts : (⟨ek, dkPke, hek'⟩ : KeyPair) = kem.keyGen v.d v.z := by
      rw [hek, hdk, hhek]
      exact hpair
    rw [idealKeyGen, ← hparts]

/-- **The key generation.** Without a timeout, the vectors are judged as the mechanism is. -/
theorem triple_testKeyGenFrom (looks : ℕ → ℕ) (i : ℕ) {vecs : List KeyGenVector}
    (hvecs : ∀ v ∈ vecs, v.d.length = 32 ∧ v.z.length = 32) :
    Program.Triple (Ready spec) (testKeyGenFrom bd looks i vecs)
      (fun rs s => rs = vecs.map (idealKeyGen kem) ∧ Ready spec s ∨ .timedOut ∈ rs)
      fun _ _ => True := by
  induction vecs generalizing i with
  | nil => exact Program.triple_pure fun s hs => .inl ⟨rfl, hs⟩
  | cons v vecs ih =>
    obtain ⟨⟨hd, hz⟩, hvecs⟩ := List.forall_mem_cons.mp hvecs
    refine (triple_testKeyGenOne spec (looks i) hd hz).bind fun r => ?_
    by_cases hr : r = .timedOut
    · refine (Program.triple_true _ _).bind fun rs => Program.triple_pure fun s _ => .inr ?_
      rw [hr]
      exact List.mem_cons_self
    · have hrest : Program.Triple (fun s => r = idealKeyGen kem v ∧ Ready spec s)
          (do let rs ← testKeyGenFrom bd looks (i + 1) vecs; pure (r :: rs))
          (fun rs s => rs = (v :: vecs).map (idealKeyGen kem) ∧ Ready spec s ∨ .timedOut ∈ rs)
          fun _ _ => True := by
        refine Program.triple_and fun hideal => ?_
        refine (ih (i + 1) hvecs).bind fun rs => Program.triple_pure fun s hs => ?_
        rcases hs with ⟨rfl, hready⟩ | hmem
        · exact .inl ⟨by rw [hideal, List.map_cons], hready⟩
        · exact .inr (List.mem_cons_of_mem r hmem)
      exact hrest.conseq (fun s hs => hs.resolve_right hr) fun _ _ hq => hq

omit spec in
/-- What is staged lies side by side, but for the first bytes behind `z`. -/
theorem staged_spec (mem : Memory) {kp : KeyPair} {z c : Bytes} (hpke : kp.dkPke.length = 768)
    (hek : kp.ek.length = 800) (hhek : kp.hek.length = 32) (hz : z.length = 32)
    (hc : c.length = 768) :
    keyPair (staged mem kp z c) = kp ∧ (staged mem kp z c).read zBase 32 = z ∧
      (staged mem kp z c).read (zBase + 32) 768 = c ∧ (staged mem kp z c).read ctBase 768 = c := by
  have hct {m : Memory} {off n : ℕ} (h : off + n ≤ ctBase ∨ ctBase + 768 ≤ off) :
      (m.write ctBase c).read off n = m.read off n :=
    Memory.read_write_of_disjoint (by rwa [hc])
  have hj {m : Memory} {off n : ℕ} (h : off + n ≤ zBase + 32 ∨ zBase + 32 + 768 ≤ off) :
      (m.write (zBase + 32) c).read off n = m.read off n :=
    Memory.read_write_of_disjoint (by rwa [hc])
  have hzs {m : Memory} {off n : ℕ} (h : off + n ≤ zBase ∨ zBase + 32 ≤ off) :
      (m.write zBase z).read off n = m.read off n :=
    Memory.read_write_of_disjoint (by rwa [hz])
  have hheks {m : Memory} {off n : ℕ} (h : off + n ≤ hekBase ∨ hekBase + 32 ≤ off) :
      (m.write hekBase kp.hek).read off n = m.read off n :=
    Memory.read_write_of_disjoint (by rwa [hhek])
  have heks {m : Memory} {off n : ℕ} (h : off + n ≤ ekBase ∨ ekBase + 800 ≤ off) :
      (m.write ekBase kp.ek).read off n = m.read off n :=
    Memory.read_write_of_disjoint (by rwa [hek])
  have hreadEk : (staged mem kp z c).read ekBase 800 = kp.ek := by
    rw [staged, hct (by decide), hj (by decide), hzs (by decide), hheks (by decide),
      Memory.read_write_self hek]
  have hreadDk : (staged mem kp z c).read dkBase 768 = kp.dkPke := by
    rw [staged, hct (by decide), hj (by decide), hzs (by decide), hheks (by decide),
      heks (by decide), Memory.read_write_self hpke]
  have hreadHek : (staged mem kp z c).read hekBase 32 = kp.hek := by
    rw [staged, hct (by decide), hj (by decide), hzs (by decide), Memory.read_write_self hhek]
  refine ⟨?_, ?_, ?_, ?_⟩
  · rw [keyPair, hreadEk, hreadDk, hreadHek]
  · rw [staged, hct (by decide), hj (by decide), Memory.read_write_self hz]
  · rw [staged, hct (by decide), Memory.read_write_self hc]
  · rw [staged, Memory.read_write_self hc]

/-- **One vector for the decapsulation.** The parts of the key and the ciphertext are staged
beside one another. -/
theorem triple_testDecapsOne (looks : ℕ) {v : DecapsVector} (hdk : v.dk.length = 1632)
    (hc : v.c.length = 768) :
    Program.Triple (Ready spec) (testDecapsOne bd looks v)
      (fun r s => r = idealDecaps kem v ∧ Ready spec s) fun _ _ => True := by
  have hparts : (splitDk v.dk).1.dkPke.length = 768 ∧ (splitDk v.dk).1.ek.length = 800 ∧
      (splitDk v.dk).1.hek.length = 32 ∧ (splitDk v.dk).2.length = 32 := by
    simp only [splitDk, List.length_take, List.length_drop, hdk]
    decide
  obtain ⟨hpke, hek, hhek, hz⟩ := hparts
  refine Program.triple_exists fun mem => Program.triple_exists fun sd => ?_
  refine (triple_pause spec 100).bind fun _ => ?_
  refine (triple_softReset spec).bind fun _ => ?_
  refine (triple_wrBlock spec (splitDk v.dk).1.dkPke (by rw [hpke]; decide)).bind fun _ => ?_
  refine (triple_wrBlock spec (splitDk v.dk).1.ek (by rw [hek]; decide)).bind fun _ => ?_
  refine (triple_wrBlock spec (splitDk v.dk).1.hek (by rw [hhek]; decide)).bind fun _ => ?_
  refine (triple_wrBlock spec (splitDk v.dk).2 (by rw [hz]; decide)).bind fun _ => ?_
  refine (triple_wrBlock spec v.c (by rw [hc]; decide)).bind fun _ => ?_
  refine (triple_wrBlock spec v.c (by rw [hc]; decide)).bind fun _ => ?_
  obtain ⟨hpair, hstored, hbehind, hct⟩ := staged_spec mem hpke hek hhek hz hc
  have hrun : Program.Triple (spec.Idle (staged mem (splitDk v.dk).1 (splitDk v.dk).2 v.c) sd)
      (bd.run .decaps looks) (fun _ s => ∃ mem', mem'.read ssBase 32 =
        (kem.decaps (splitDk v.dk).1 (splitDk v.dk).2 v.c).1 ∧ spec.Idle mem' sd s)
      fun _ _ => True := by
    refine (Board.triple_run spec .decaps looks).weaken (fun _ hs => hs) ?_ fun _ _ _ => trivial
    rintro st s ⟨mem', heffect, hidle⟩
    refine ⟨mem', ?_, hidle⟩
    rw [OpEffect, hpair, hstored, hct] at heffect
    rw [← heffect hbehind]
  refine hrun.bind fun _ => Program.triple_exists fun mem' => Program.triple_and fun hsecret => ?_
  refine (Board.triple_rdBlock spec (by decide)).bind fun k => Program.triple_and fun hk => ?_
  refine Program.triple_pure fun s hs => ⟨?_, mem', sd, hs⟩
  rw [hk, hsecret]
  rfl

/-- **The decapsulation.** The vectors are judged as the mechanism is. -/
theorem triple_testDecapsFrom (looks : ℕ → ℕ) (i : ℕ) {vecs : List DecapsVector}
    (hvecs : ∀ v ∈ vecs, v.dk.length = 1632 ∧ v.c.length = 768) :
    Program.Triple (Ready spec) (testDecapsFrom bd looks i vecs)
      (fun rs s => rs = vecs.map (idealDecaps kem) ∧ Ready spec s) fun _ _ => True := by
  induction vecs generalizing i with
  | nil => exact Program.triple_pure fun s hs => ⟨rfl, hs⟩
  | cons v vecs ih =>
    obtain ⟨⟨hdk, hc⟩, hvecs⟩ := List.forall_mem_cons.mp hvecs
    refine (triple_testDecapsOne spec (looks i) hdk hc).bind fun r =>
      Program.triple_and fun hr => ?_
    refine (ih (i + 1) hvecs).bind fun rs => Program.triple_and fun hrs => ?_
    refine Program.triple_pure fun s hs => ⟨?_, hs⟩
    rw [hr, hrs, List.map_cons]

omit spec in
/-- A test that is not asked for has no results. -/
theorem triple_appendIf {P : σ → Prop} {wanted : Bool} {test : Host σ (List Verdict)}
    {Q : List (List Verdict) → σ → Prop} (hskip : wanted = false → ∀ s, P s → Q [] s)
    (htest : wanted = true → Program.Triple P test (fun rs s => Q [rs] s) E) :
    Program.Triple P (appendIf wanted test) Q E := by
  cases wanted with
  | false => exact Program.triple_pure (hskip rfl)
  | true => exact (htest rfl).bind fun rs => Program.triple_pure fun _ hs => hs

omit spec in
/-- The results of a board that is judged as the mechanism. -/
theorem rc_ideal_iff (mode : Mode) (vecs : Vectors) :
    rc ((if mode.testsKeyGen then [vecs.keygen.map (idealKeyGen kem)] else []) ++
        if mode.testsDecaps then [vecs.decaps.map (idealDecaps kem)] else []) = 0 ↔
      Conforms kem mode vecs := by
  have hkeyGen : (∀ r ∈ vecs.keygen.map (idealKeyGen kem), r.good = true) ↔ ∀ v ∈ vecs.keygen,
      (kem.keyGen v.d v.z).ek = v.ek ∧ joinDk (kem.keyGen v.d v.z) v.z = v.dk := by
    simp only [List.forall_mem_map, idealKeyGen, Verdict.good, Bool.and_eq_true, beq_iff_eq]
  have hdecaps : (∀ r ∈ vecs.decaps.map (idealDecaps kem), r.good = true) ↔ ∀ v ∈ vecs.decaps,
      (kem.decaps (splitDk v.dk).1 (splitDk v.dk).2 v.c).1 = v.k := by
    simp only [List.forall_mem_map, idealDecaps, Verdict.good, beq_iff_eq]
  have hrc (results : List (List Verdict)) : rc results = 0 ↔ ∀ rs ∈ results, passed rs := by
    rw [rc, ← List.all_eq_true]
    split
    next h => exact iff_of_true rfl h
    next h => exact iff_of_false Nat.one_ne_zero h
  rw [hrc, List.forall_mem_append]
  constructor
  · rintro ⟨hfirst, hsecond⟩
    constructor
    · intro hmode
      rw [if_pos hmode, List.forall_mem_singleton, passed_iff] at hfirst
      exact hkeyGen.mp hfirst
    · intro hmode
      rw [if_pos hmode, List.forall_mem_singleton, passed_iff] at hsecond
      exact hdecaps.mp hsecond
  · intro hconforms
    constructor
    · split
      next hmode =>
        rw [List.forall_mem_singleton, passed_iff]
        exact hkeyGen.mpr (hconforms.keygen hmode)
      next => exact List.forall_mem_nil _
    · split
      next hmode =>
        rw [List.forall_mem_singleton, passed_iff]
        exact hdecaps.mpr (hconforms.decaps hmode)
      next => exact List.forall_mem_nil _

omit spec in
/-- A timeout is told. -/
theorem rc_of_timedOut {results : List (List Verdict)} {rs : List Verdict} (hrs : rs ∈ results)
    (h : .timedOut ∈ rs) : rc results ≠ 0 := by
  have hall : results.all passed = false := by
    rw [List.all_eq_false]
    exact ⟨rs, hrs, by rw [not_passed_of_timedOut h]; exact Bool.false_ne_true⟩
  rw [rc, hall]
  exact Nat.one_ne_zero

/-- **The verdict.** On a line that loses nothing, `PASS` says that the mechanism of the board
yields the outputs of all vectors that the arguments select; `FAIL` that it does not, or that a key
generation took too long, and a timeout is never passed over. -/
theorem main_verdict (mode : Mode) (only : Option ℤ) {vecs : Vectors}
    (hvecs : (vecs.select only).WellFormed) (keyGenLooks decapsLooks : ℕ → ℕ) :
    Program.Triple (Ready spec) (main bd mode only vecs keyGenLooks decapsLooks)
      (fun results _ => (rc results = 0 → Conforms kem mode (vecs.select only)) ∧
        (rc results ≠ 0 → ¬Conforms kem mode (vecs.select only) ∨
          ∃ rs ∈ results, .timedOut ∈ rs) ∧
        ((∃ rs ∈ results, .timedOut ∈ rs) → rc results ≠ 0)) fun _ _ => True := by
  have htold (results : List (List Verdict)) :
      (∃ rs ∈ results, .timedOut ∈ rs) → rc results ≠ 0 := by
    rintro ⟨rs, hrs, hmem⟩
    exact rc_of_timedOut hrs hmem
  have hping : Program.Triple (Ready spec) (bd.ping 3) (fun _ => Ready spec) fun _ _ => True :=
    Program.triple_exists fun mem => Program.triple_exists fun sd =>
      (Board.triple_ping spec 3).conseq (fun _ hs => hs) fun _ s hs => ⟨mem, sd, hs⟩
  have hfirst : Program.Triple (Ready spec) (appendIf mode.testsKeyGen
      (testKeyGenFrom bd keyGenLooks 0 (vecs.select only).keygen))
      (fun first s => first = (if mode.testsKeyGen then
        [(vecs.select only).keygen.map (idealKeyGen kem)] else []) ∧ Ready spec s ∨
          ∃ rs ∈ first, .timedOut ∈ rs) fun _ _ => True := by
    apply triple_appendIf
    · intro hmode s hs
      exact .inl ⟨by rw [hmode]; rfl, hs⟩
    · intro hmode
      refine (triple_testKeyGenFrom spec keyGenLooks 0 hvecs.keygen).conseq (fun _ hs => hs) ?_
      rintro rs s (⟨hrs, hready⟩ | htimeout)
      · exact .inl ⟨by rw [hmode, hrs]; rfl, hready⟩
      · exact .inr ⟨rs, List.mem_cons_self, htimeout⟩
  refine hping.bind fun _ => hfirst.bind fun first => ?_
  by_cases htimeout : ∃ rs ∈ first, .timedOut ∈ rs
  · refine (Program.triple_true _ _).bind fun second => Program.triple_pure fun _ _ => ?_
    obtain ⟨rs, hrs, hmem⟩ := htimeout
    have hrs' := List.mem_append_left second hrs
    exact ⟨fun hzero => absurd hzero (rc_of_timedOut hrs' hmem), fun _ => .inr ⟨rs, hrs', hmem⟩,
      htold _⟩
  · have hsecond : Program.Triple (fun s => first = (if mode.testsKeyGen then
        [(vecs.select only).keygen.map (idealKeyGen kem)] else []) ∧ Ready spec s)
        (appendIf mode.testsDecaps (testDecapsFrom bd decapsLooks 0 (vecs.select only).decaps))
        (fun second _ => rc (first ++ second) = 0 ↔ Conforms kem mode (vecs.select only))
        fun _ _ => True := by
      refine Program.triple_and fun hideal => ?_
      subst hideal
      apply triple_appendIf
      · intro hmode s hs
        rw [← rc_ideal_iff mode (vecs.select only), hmode]
        exact Iff.rfl
      · intro hmode
        refine (triple_testDecapsFrom spec decapsLooks 0 hvecs.decaps).conseq (fun _ hs => hs) ?_
        rintro rs s ⟨hrs, -⟩
        rw [← rc_ideal_iff mode (vecs.select only), hmode, hrs]
        exact Iff.rfl
    refine (hsecond.conseq (fun s hs => hs.resolve_right htimeout) fun _ _ hq => hq).bind
      fun second => Program.triple_pure fun s hs => ?_
    exact ⟨hs.mp, fun hne => .inl fun hconforms => hne (hs.mpr hconforms), htold _⟩

end Runs

/-- One vector for each test, with the outputs of the simulated mechanism. -/
def openVectors : Vectors where
  keygen := [⟨List.replicate 32 1, List.replicate 32 2, openPair.ek,
    joinDk openPair (List.replicate 32 2)⟩]
  decaps := [⟨joinDk openPair (List.replicate 32 2), List.replicate 768 7, List.replicate 32 7⟩]

theorem wellFormed_openVectors : openVectors.WellFormed where
  keygen := by
    intro v hv
    rw [List.mem_singleton.mp hv]
    exact ⟨List.length_replicate, List.length_replicate⟩
  decaps := by
    intro v hv
    rw [List.mem_singleton.mp hv]
    refine ⟨?_, List.length_replicate⟩
    have hlen : (joinDk openPair (List.replicate 32 2)).length = 768 + 800 + 32 + 32 := by
      rw [joinDk, List.length_append, List.length_append, List.length_append, openPair,
        List.length_replicate, List.length_replicate, List.length_replicate, List.length_replicate]
    exact hlen

/-- Both tests on a simulated board. -/
theorem main_verdict_simulated :
    Program.Triple (Ready (SimBoard.spec "KC705"))
      (main (SimBoard.board "KC705") .all none openVectors (fun _ => 9) fun _ => 9)
      (fun results _ => (rc results = 0 → Conforms openKem .all (openVectors.select none)) ∧
        (rc results ≠ 0 → ¬Conforms openKem .all (openVectors.select none) ∨
          ∃ rs ∈ results, .timedOut ∈ rs) ∧
        ((∃ rs ∈ results, .timedOut ∈ rs) → rc results ≠ 0)) fun _ _ => True :=
  main_verdict (SimBoard.spec "KC705") .all none wellFormed_openVectors (fun _ => 9) fun _ => 9

end SecureWan.KeyExchange.Nist
