import SecureWan.ByteCache.Chunker

/-!
# The CDC engine

With an engine in the place of free decisions, the chunks depend on the bytes alone. The
chunker of the source, with its buffers and loops over segments, cuts a stream like a machine
that sees one byte after the other; and it is one of the chunkers that decide freely.
-/

namespace SecureWan.ByteCache

/-- A CDC engine: `cdc_feed_byte` and `cdc_state_reset` on its state. -/
structure CdcEngine (ρ : Type*) where
  feedByte : ρ → UInt8 → ℕ → CdcResult × ρ
  stateReset : ρ → ρ

/-- A chunk that `process_chunk` passes to `module3` and `module4`. -/
structure Chunk where
  data : Bytes
  chunkType : ℕ

/-- `module1_state` with the state of the engine, and the chunks passed on so far. -/
structure EngineState (ρ : Type*) where
  module1 : Module1State
  rabin : ρ
  chunks : List Chunk

/-- What is decided outside while a byte is added: the two calls of `chunk_alloc` and the
answers of `module4`. -/
structure ByteEnv where
  alloc : Bool
  builtFull : Bool
  allocNext : Bool
  built : Bool

/-- With what the engine finds. -/
def ByteEnv.choice (e : ByteEnv) (cdc : CdcResult) : ByteChoice :=
  ⟨e.alloc, e.builtFull, e.allocNext, cdc, e.built⟩

/-- The two calls of `chunk_alloc` succeed. -/
def ByteEnv.Allocs (e : ByteEnv) : Prop := e.alloc = true ∧ e.allocNext = true

namespace EngineState

variable {ρ : Type*} (engine : CdcEngine ρ) (chunkSize : ℕ+) (s : EngineState ρ)

/-- `module1_state_init`, with what `cdc_init_state` leaves. -/
def init (rabin : ρ) : EngineState ρ := ⟨.init, rabin, []⟩

/-- The bytes of the current chunk. -/
def used : Bytes := s.module1.used

/-- `chunk_alloc`. -/
def chunkAlloc (available : Bool) : Option (EngineState ρ) :=
  (s.module1.chunkAlloc available).map fun m => { s with module1 := m }

/-- `process_chunk`. -/
def processChunk (chunkType : ℕ) (built : Bool) : EngineState ρ :=
  if s.used = [] then s
  else
    { module1 := s.module1.processChunk built
      rabin := engine.stateReset s.rabin
      chunks := s.chunks ++ [⟨s.used, chunkType⟩] }

/-- The byte is stored, and fed to the CDC engine. -/
def feed (b : UInt8) (built : Bool) : EngineState ρ :=
  let bytes := s.used ++ [b]
  let (result, rabin) := engine.feedByte s.rabin b bytes.length
  let s := { s with module1 := { s.module1 with current := some bytes }, rabin := rabin }
  match result with
  | .boundary | .boundaryStrong => s.processChunk engine 0 built
  | .boundaryMax => s.processChunk engine 2 built
  | .cont => s

/-- The body of the inner loop of `module1_add_data`, and whether it went through. -/
def addByte (b : UInt8) (e : ByteEnv) : EngineState ρ × Bool :=
  match s.chunkAlloc e.alloc with
  | none => (s, false)
  | some s =>
    if (chunkSize : ℕ) ≤ s.used.length then
      let s := s.processChunk engine 2 e.builtFull
      match s.chunkAlloc e.allocNext with
      | none => (s, false)
      | some s => (s.feed engine b e.built, true)
    else (s.feed engine b e.built, true)

/-- The inner loop of `module1_add_data`, over the bytes of a segment. -/
def addBytes (env : ℕ → ByteEnv) (s : EngineState ρ) (total : ℕ) :
    Bytes → EngineState ρ × ℕ × Bool
  | [] => (s, total, true)
  | b :: bs =>
    match s.addByte engine chunkSize b (env total) with
    | (s, false) => (s, total, false)
    | (s, true) => addBytes env s (total + 1) bs

/-- The outer loop of `module1_add_data`, over the segments. -/
def addSegs (env : ℕ → ByteEnv) (s : EngineState ρ) (total : ℕ) :
    List Bytes → EngineState ρ × ℕ × Bool
  | [] => (s, total, true)
  | seg :: segs =>
    match addBytes engine chunkSize env s total seg with
    | (s, total, false) => (s, total, false)
    | (s, total, true) => addSegs env s total segs

/-- `module1_add_data`, on the segments of a chain. -/
def addData (segs : List Bytes) (env : ℕ → ByteEnv) : EngineState ρ × ℕ :=
  match addSegs engine chunkSize env s 0 segs with
  | (s, total, false) => (s, total % 2 ^ 32)
  | (s, total, true) =>
    if 0 < s.used.length ∧ s.module1.chunkTo = 0 then
      ({ s with module1 := { s.module1 with chunkTo := inactivityTicks } }, total % 2 ^ 32)
    else (s, total % 2 ^ 32)

end EngineState

/-! ### Cutting a stream -/

/-- A machine that cuts a stream: the chunks cut off, the bytes behind them, and the state of
the engine. -/
structure Cutter (ρ : Type*) where
  chunks : List Chunk
  rest : Bytes
  rabin : ρ

namespace Cutter

variable {ρ : Type*} (engine : CdcEngine ρ) (chunkSize : ℕ+) (c : Cutter ρ)

/-- The bytes so far make a chunk, if there are any. -/
def cut (chunkType : ℕ) : Cutter ρ :=
  if c.rest = [] then c else ⟨c.chunks ++ [⟨c.rest, chunkType⟩], [], engine.stateReset c.rabin⟩

/-- The chunk of as many bytes as fit is cut off. -/
def makeRoom : Cutter ρ := if (chunkSize : ℕ) ≤ c.rest.length then c.cut engine 2 else c

/-- The next byte, where there is room. -/
def push (b : UInt8) : Cutter ρ :=
  let (result, rabin) := engine.feedByte c.rabin b (c.rest ++ [b]).length
  let c := ⟨c.chunks, c.rest ++ [b], rabin⟩
  match result with
  | .boundary | .boundaryStrong => c.cut engine 0
  | .boundaryMax => c.cut engine 2
  | .cont => c

/-- The next byte of the stream. -/
def next (b : UInt8) : Cutter ρ := (c.makeRoom engine chunkSize).push engine b

/-- All bytes so far. -/
def bytes : Bytes := c.chunks.flatMap Chunk.data ++ c.rest

variable {engine chunkSize c}

theorem bytes_cut (chunkType : ℕ) : (c.cut engine chunkType).bytes = c.bytes := by
  unfold cut
  split
  · rfl
  · simp [bytes]

theorem bytes_push (b : UInt8) : (c.push engine b).bytes = c.bytes ++ [b] := by
  have hstored (rabin : ρ) : bytes ⟨c.chunks, c.rest ++ [b], rabin⟩ = c.bytes ++ [b] :=
    (List.append_assoc _ _ _).symm
  unfold push
  dsimp only
  split
  all_goals first | rw [bytes_cut, hstored] | exact hstored _

/-- No byte is lost and none is added. -/
theorem bytes_next (b : UInt8) : (c.next engine chunkSize b).bytes = c.bytes ++ [b] := by
  have hroom : (c.makeRoom engine chunkSize).bytes = c.bytes := by
    unfold makeRoom
    split
    · exact bytes_cut 2
    · rfl
  rw [next, bytes_push, hroom]

theorem bytes_run (bs : Bytes) :
    (Runs.run (next engine chunkSize) c bs).bytes = c.bytes ++ bs := by
  induction bs generalizing c with
  | nil => exact (List.append_nil _).symm
  | cons b bs ih => rw [Runs.run_cons, ih, bytes_next, List.append_assoc, List.singleton_append]

end Cutter

namespace EngineState

variable {ρ : Type*} {engine : CdcEngine ρ} {chunkSize : ℕ+} {s s' : EngineState ρ}

/-- What a chunker has of the cutting machine. -/
def cutter (s : EngineState ρ) : Cutter ρ := ⟨s.chunks, s.used, s.rabin⟩

theorem cutter_processChunk (chunkType : ℕ) (built : Bool) :
    (s.processChunk engine chunkType built).cutter = s.cutter.cut engine chunkType := by
  unfold processChunk Cutter.cut
  by_cases hused : s.used = []
  · rw [if_pos hused, if_pos (show s.cutter.rest = [] from hused)]
  · rw [if_neg hused, if_neg (show s.cutter.rest ≠ [] from hused)]
    exact congrArg (Cutter.mk _ · _) (Module1State.used_processChunk built)

/-- An allocation changes nothing that counts. -/
theorem of_chunkAlloc {available : Bool} (h : s.chunkAlloc available = some s') :
    s.module1.chunkAlloc available = some s'.module1 ∧ s'.cutter = s.cutter := by
  obtain ⟨m, hm, rfl⟩ := Option.map_eq_some_iff.mp h
  exact ⟨hm, congrArg (Cutter.mk _ · _) (Module1State.of_chunkAlloc hm).1⟩

/-- Where buffers can be had, an allocation succeeds. -/
theorem chunkAlloc_true (s : EngineState ρ) : ∃ s', s.chunkAlloc true = some s' := by
  unfold chunkAlloc Module1State.chunkAlloc
  cases s.module1.current with
  | some bs => exact ⟨s, rfl⟩
  | none => exact ⟨_, rfl⟩

theorem cutter_feed (b : UInt8) (built : Bool) :
    (s.feed engine b built).cutter = s.cutter.push engine b := by
  have hself : s.cutter = ⟨s.chunks, s.used, s.rabin⟩ := rfl
  rw [hself]
  unfold feed Cutter.push
  dsimp only
  cases (engine.feedByte s.rabin b (s.used ++ [b]).length).1 with
  | cont => rfl
  | boundary => exact cutter_processChunk 0 built
  | boundaryStrong => exact cutter_processChunk 0 built
  | boundaryMax => exact cutter_processChunk 2 built

variable {e : ByteEnv} {env : ℕ → ByteEnv}

/-- **One byte.** -/
theorem cutter_addByte (halloc : e.Allocs) (b : UInt8) :
    (s.addByte engine chunkSize b e).2 = true ∧
      (s.addByte engine chunkSize b e).1.cutter = s.cutter.next engine chunkSize b := by
  obtain ⟨halloc, hnext⟩ := halloc
  obtain ⟨s₁, hs₁⟩ := s.chunkAlloc_true
  have hcutter₁ := (of_chunkAlloc hs₁).2
  unfold addByte Cutter.next Cutter.makeRoom
  rw [halloc, hs₁, hnext]
  dsimp only
  have hused : s.cutter.rest = s₁.used := congrArg Cutter.rest hcutter₁.symm
  rw [hused]
  split
  · obtain ⟨s₃, hs₃⟩ := (s₁.processChunk engine 2 e.builtFull).chunkAlloc_true
    rw [hs₃]
    refine ⟨rfl, ?_⟩
    rw [cutter_feed, (of_chunkAlloc hs₃).2, cutter_processChunk, hcutter₁]
  · refine ⟨rfl, ?_⟩
    rw [cutter_feed, hcutter₁]

/-- A segment. -/
theorem cutter_addBytes (henv : ∀ i, (env i).Allocs) (total : ℕ) (bs : Bytes) :
    (addBytes engine chunkSize env s total bs).2.2 = true ∧
      (addBytes engine chunkSize env s total bs).1.cutter =
        Runs.run (Cutter.next engine chunkSize) s.cutter bs := by
  induction bs generalizing s total with
  | nil => exact ⟨rfl, rfl⟩
  | cons b bs ih =>
    obtain ⟨hwent, hcutter⟩ := @cutter_addByte ρ engine chunkSize s _ (henv total) b
    unfold addBytes
    cases hadd : s.addByte engine chunkSize b (env total) with
    | mk s' went =>
      rw [hadd] at hwent hcutter
      dsimp only at hwent hcutter
      subst hwent
      rw [Runs.run_cons, ← hcutter]
      exact ih (total + 1)

/-- A chain. -/
theorem cutter_addSegs (henv : ∀ i, (env i).Allocs) (total : ℕ) (segs : List Bytes) :
    (addSegs engine chunkSize env s total segs).2.2 = true ∧
      (addSegs engine chunkSize env s total segs).1.cutter =
        Runs.run (Cutter.next engine chunkSize) s.cutter segs.flatten := by
  induction segs generalizing s total with
  | nil => exact ⟨rfl, rfl⟩
  | cons seg segs ih =>
    obtain ⟨hwent, hcutter⟩ := @cutter_addBytes ρ engine chunkSize s env henv total seg
    unfold addSegs
    cases hadd : addBytes engine chunkSize env s total seg with
    | mk s' rest =>
      obtain ⟨total', went⟩ := rest
      rw [hadd] at hwent hcutter
      dsimp only at hwent hcutter
      subst hwent
      rw [List.flatten_cons, Runs.run_append, ← hcutter]
      exact ih total'

/-- **`module1_add_data`** cuts the stream on. -/
theorem cutter_addData (henv : ∀ i, (env i).Allocs) (segs : List Bytes) :
    (s.addData engine chunkSize segs env).1.cutter =
      Runs.run (Cutter.next engine chunkSize) s.cutter segs.flatten := by
  obtain ⟨hwent, hcutter⟩ := @cutter_addSegs ρ engine chunkSize s env henv 0 segs
  rw [← hcutter]
  unfold addData
  cases hadd : addSegs engine chunkSize env s 0 segs with
  | mk s' rest =>
    obtain ⟨total', went⟩ := rest
    rw [hadd] at hwent
    dsimp only at hwent
    subst hwent
    dsimp only
    split
    · rfl
    · rfl

/-! ### Free decisions -/

/-- What the engine finds for a byte. -/
def finds (engine : CdcEngine ρ) (chunkSize : ℕ+) (s : EngineState ρ) (b : UInt8) : CdcResult :=
  let c := s.cutter.makeRoom engine chunkSize
  (engine.feedByte c.rabin b (c.rest ++ [b]).length).1

theorem module1_processChunk (chunkType : ℕ) (built : Bool) :
    (s.processChunk engine chunkType built).module1 = s.module1.processChunk built := by
  unfold processChunk
  split
  next hused => exact (if_pos hused).symm
  next => rfl

theorem module1_feed (b : UInt8) (e : ByteEnv) :
    (s.feed engine b e.built).module1 = s.module1.feed b
      (e.choice (engine.feedByte s.rabin b (s.used ++ [b]).length).1) := by
  unfold feed Module1State.feed ByteEnv.choice
  dsimp only
  cases (engine.feedByte s.rabin b (s.used ++ [b]).length).1 with
  | cont => rfl
  | boundary => exact module1_processChunk 0 e.built
  | boundaryStrong => exact module1_processChunk 0 e.built
  | boundaryMax => exact module1_processChunk 2 e.built

/-- A byte is added as by the chunker that decides freely, when it decides like the engine. -/
theorem module1_addByte (b : UInt8) (e : ByteEnv) :
    ((s.addByte engine chunkSize b e).1.module1, (s.addByte engine chunkSize b e).2) =
      s.module1.addByte chunkSize b (e.choice (finds engine chunkSize s b)) := by
  unfold addByte Module1State.addByte
  have halloc : (e.choice (finds engine chunkSize s b)).alloc = e.alloc := rfl
  rw [halloc]
  cases hs₁ : s.chunkAlloc e.alloc with
  | none => rw [Option.map_eq_none_iff.mp hs₁]
  | some s₁ =>
    obtain ⟨hm₁, hcutter₁⟩ := of_chunkAlloc hs₁
    rw [hm₁]
    dsimp only
    unfold finds Cutter.makeRoom
    rw [← hcutter₁]
    have hused : s₁.used = s₁.module1.used := rfl
    have hrest : s₁.cutter.rest = s₁.used := rfl
    rw [hrest]
    split
    next hfull =>
      rw [if_pos (hused ▸ hfull)]
      have hm₂ := @module1_processChunk ρ engine s₁ 2 e.builtFull
      cases hs₃ : (s₁.processChunk engine 2 e.builtFull).chunkAlloc e.allocNext with
      | none =>
        have hm₃ := Option.map_eq_none_iff.mp hs₃
        rw [hm₂] at hm₃
        simp only [ByteEnv.choice, hm₃, hm₂]
      | some s₃ =>
        obtain ⟨hm₃, hcutter₃⟩ := of_chunkAlloc hs₃
        rw [cutter_processChunk] at hcutter₃
        rw [hm₂] at hm₃
        rw [← hcutter₃]
        simp only [ByteEnv.choice, hm₃]
        exact congrArg (·, true) (module1_feed b e)
    next hroom =>
      rw [if_neg (hused ▸ hroom)]
      exact congrArg (·, true) (module1_feed b e)

end EngineState

/-! ### Segmentation -/

/-- A call of `module1_add_data`: the segments, and what is decided outside. -/
structure AddDataCall where
  segs : List Bytes
  env : ℕ → ByteEnv

namespace AddDataCall

variable {ρ : Type*} {engine : CdcEngine ρ} {chunkSize : ℕ+} {s : EngineState ρ}

/-- Every allocation of the call succeeds. -/
def Allocs (call : AddDataCall) : Prop := ∀ i, (call.env i).Allocs

/-- The bytes that some calls bring. -/
def stream (calls : List AddDataCall) : Bytes := calls.flatMap fun call => call.segs.flatten

/-- One call. -/
def step (engine : CdcEngine ρ) (chunkSize : ℕ+) (s : EngineState ρ) (call : AddDataCall) :
    EngineState ρ := (s.addData engine chunkSize call.segs call.env).1

theorem cutter_run {calls : List AddDataCall} (halloc : ∀ call ∈ calls, call.Allocs) :
    (Runs.run (step engine chunkSize) s calls).cutter =
      Runs.run (Cutter.next engine chunkSize) s.cutter (stream calls) := by
  induction calls generalizing s with
  | nil => rfl
  | cons call calls ih =>
    obtain ⟨hcall, hcalls⟩ := List.forall_mem_cons.mp halloc
    have hstream : stream (call :: calls) = call.segs.flatten ++ stream calls := List.flatMap_cons
    rw [Runs.run_cons, ih hcalls, hstream, Runs.run_append, step,
      EngineState.cutter_addData hcall]

/-- **Chunks depend on the bytes alone.** Two ways of splitting a stream into calls and segments
lead to the same chunks and the same bytes behind them, and these are the stream. -/
theorem chunks_eq_of_stream_eq (engine : CdcEngine ρ) (chunkSize : ℕ+) (s : EngineState ρ)
    {calls calls' : List AddDataCall} (halloc : ∀ call ∈ calls, call.Allocs)
    (halloc' : ∀ call ∈ calls', call.Allocs) (hstream : stream calls = stream calls') :
    let t := Runs.run (step engine chunkSize) s calls
    let t' := Runs.run (step engine chunkSize) s calls'
    t.chunks = t'.chunks ∧ t.used = t'.used ∧
      t.chunks.flatMap Chunk.data ++ t.used =
        s.chunks.flatMap Chunk.data ++ s.used ++ stream calls := by
  have h := @cutter_run ρ engine chunkSize s calls halloc
  have h' := @cutter_run ρ engine chunkSize s calls' halloc'
  rw [← hstream, ← h] at h'
  refine ⟨(congrArg Cutter.chunks h').symm, (congrArg Cutter.rest h').symm, ?_⟩
  exact (congrArg Cutter.bytes h).trans (Cutter.bytes_run (stream calls))

/-- An engine that finds a boundary behind every zero. -/
def zeros : CdcEngine Unit := ⟨fun _ b _ => (if b = 0 then .boundary else .cont, ()), id⟩

/-- Four bytes in one segment, or in three with an empty one among them. -/
theorem chunks_eq_of_stream_eq_zeros :
    let env : ℕ → ByteEnv := fun _ => ⟨true, true, true, true⟩
    let t := Runs.run (step zeros 4096) (.init ()) [⟨[[5, 0, 6, 7]], env⟩]
    let t' := Runs.run (step zeros 4096) (.init ()) [⟨[[5], []], env⟩, ⟨[[0, 6, 7]], env⟩]
    t.chunks = t'.chunks ∧ t.used = t'.used ∧
      t.chunks.flatMap Chunk.data ++ t.used = [5, 0, 6, 7] :=
  chunks_eq_of_stream_eq zeros 4096 (.init ()) (by simp [Allocs, ByteEnv.Allocs])
    (by simp [Allocs, ByteEnv.Allocs]) rfl

end AddDataCall

end SecureWan.ByteCache
