import SecureWan.ByteCache.ChunkLog

/-!
# Runs of the chunk store without faults

What a caller of `module2.c` sees over any sequence of stores, lookups, reads and restarts in
which nothing fails. What was stored first under a hash is said in terms of the calls, not of
the state of the store.
-/

namespace SecureWan.ByteCache

open Module2State

/-! ### The calls so far -/

/-- The data that an event brings under a hash. -/
def StoreEvent.dataFor (hash : ChunkHash) : StoreEvent → Option Bytes
  | .store _ h data => if h = hash ∧ data.val ≠ [] then some data.val else none
  | .incrementRef _ => none
  | .restart => none

/-- The data first stored under a hash. -/
def firstStored (hash : ChunkHash) (es : List StoreEvent) : Option Bytes :=
  es.findSome? (StoreEvent.dataFor hash)

theorem firstStored_concat (hash : ChunkHash) (es : List StoreEvent) (e : StoreEvent) :
    firstStored hash (es ++ [e]) = (firstStored hash es).or (e.dataFor hash) := by
  simp [firstStored, List.findSome?_append]

/-- The log has what was first stored under each hash, and all of it while there is room. -/
structure Recorded (es : List StoreEvent) (log : ChunkLog) : Prop where
  data : ∀ c ∈ log.chunks, firstStored c.hash es = some c.data
  all : log.chunks.length < maxChunks → ∀ hash, firstStored hash es ≠ none → hash ∈ log.hashes

theorem recorded_nil : Recorded [] ChunkLog.empty where
  data c hc := by simp [ChunkLog.empty] at hc
  all _ hash hne := absurd rfl hne

/-- An event that brings no data for a hash that is new leaves the log as it is. -/
theorem Recorded.same {es : List StoreEvent} {log : ChunkLog} (h : Recorded es log)
    {e : StoreEvent} (he : log.chunks.length < maxChunks →
      ∀ hash, e.dataFor hash ≠ none → hash ∈ log.hashes) : Recorded (es ++ [e]) log where
  data c hc := by rw [firstStored_concat, h.data c hc, Option.some_or]
  all hroom hash hne := by
    rw [firstStored_concat] at hne
    cases hold : firstStored hash es with
    | none =>
      rw [hold, Option.none_or] at hne
      exact he hroom hash hne
    | some d => exact h.all hroom hash (by rw [hold]; simp)

/-- A chunk with a new hash is the first under it. -/
theorem Recorded.push {es : List StoreEvent} {log : ChunkLog} (h : Recorded es log)
    {e : StoreEvent} (c : StoredChunk) (hnew : c.hash ∉ log.hashes)
    (hroom : log.chunks.length < maxChunks) (he : e.dataFor c.hash = some c.data)
    (hother : ∀ hash, hash ≠ c.hash → e.dataFor hash = none) :
    Recorded (es ++ [e]) (log.push c hnew hroom) where
  data d hd := by
    rw [firstStored_concat]
    rcases List.mem_append.mp hd with hold | hd
    · rw [h.data d hold, Option.some_or]
    · obtain rfl := List.mem_singleton.mp hd
      have hnone : firstStored d.hash es = none := by
        by_contra hne
        exact hnew (h.all hroom d.hash hne)
      rw [hnone, Option.none_or, he]
  all _ hash hne := by
    rw [ChunkLog.hashes, ChunkLog.push, List.map_append, List.mem_append]
    by_cases heq : hash = c.hash
    · exact .inr (by simp [heq])
    · rw [firstStored_concat, hother hash heq, Option.or_none] at hne
      exact .inl (h.all hroom hash hne)

theorem Recorded.step {es : List StoreEvent} {log : ChunkLog} (h : Recorded es log)
    (e : StoreEvent) : Recorded (es ++ [e]) (log.step e) := by
  cases e with
  | store fault hash data =>
    rw [ChunkLog.step, ChunkLog.put]
    have hdataFor : ∀ k, (StoreEvent.store fault hash data).dataFor k ≠ none →
        k = hash ∧ data.val ≠ [] := by
      intro k hk
      rw [StoreEvent.dataFor] at hk
      by_contra hne
      exact hk (if_neg fun hboth => hne ⟨hboth.1.symm, hboth.2⟩)
    split
    · rename_i hdata
      exact h.same fun _ k hk => absurd hdata (hdataFor k hk).2
    · rename_i hdata
      split
      · rename_i hnew
        split
        · rename_i hroom
          apply h.push _ hnew hroom
          · rw [StoreEvent.dataFor, if_pos ⟨rfl, hdata⟩]
          · intro k hk
            by_contra hne
            exact hk (hdataFor k hne).1
        · rename_i hfull
          exact h.same fun hroom => absurd hroom hfull
      · rename_i hmem
        exact h.same fun _ k hk => (hdataFor k hk).1 ▸ not_not.mp hmem
  | incrementRef cid => exact h.same fun _ _ hk => absurd rfl hk
  | restart => exact h.same fun _ _ hk => absurd rfl hk

theorem recorded_run (es : List StoreEvent) :
    Recorded es (Runs.run ChunkLog.step ChunkLog.empty es) := by
  induction es using List.reverseRecOn with
  | nil => exact recorded_nil
  | append_singleton es e ih =>
    rw [Runs.run_append]
    exact ih.step e

/-- Chunks stay where they are. -/
theorem ChunkLog.prefix_step (log : ChunkLog) (e : StoreEvent) :
    log.chunks <+: (log.step e).chunks := by
  cases e with
  | store fault hash data =>
    rw [ChunkLog.step, ChunkLog.put]
    split
    · exact List.prefix_rfl
    · split
      · split
        · exact List.prefix_append _ _
        · exact List.prefix_rfl
      · exact List.prefix_rfl
  | incrementRef cid => exact List.prefix_rfl
  | restart => exact List.prefix_rfl

theorem ChunkLog.prefix_run (log : ChunkLog) (es : List StoreEvent) :
    log.chunks <+: (Runs.run ChunkLog.step log es).chunks := by
  have hstep : ∀ (l : ChunkLog) (e : StoreEvent), log.chunks <+: l.chunks →
      log.chunks <+: (l.step e).chunks := fun l e h => h.trans (l.prefix_step e)
  exact Runs.run_invariant ChunkLog.step hstep List.prefix_rfl es

/-! ### Counts of references -/

/-- The number of events in the life of the present process. -/
def lifetime (n : ℕ) : StoreEvent → ℕ
  | .restart => 0
  | _ => n + 1

/-- The references are as many as the chunks and the duplicates, as 32-bit counters and, as
long as no counter can have wrapped around, as numbers. -/
structure Tallied (n : ℕ) (s : Module2State) : Prop where
  total_le : s.totalStored ≤ maxChunks
  modEq : s.refSum ≡ s.totalStored + s.duplicateCount [MOD 2 ^ 32]
  exact : maxChunks + n < 2 ^ 32 →
    s.refSum = s.totalStored + s.duplicateCount ∧ s.duplicateCount ≤ n

namespace Tallied

variable {n : ℕ} {s : Module2State}

theorem later (h : Tallied n s) : Tallied (n + 1) s where
  total_le := h.total_le
  modEq := h.modEq
  exact hn := by
    obtain ⟨hsum, hdup⟩ := h.exact (by omega)
    exact ⟨hsum, by omega⟩

theorem incrementRef (h : Tallied n s) (cid : ℕ) : Tallied (n + 1) (s.incrementRef cid) := by
  cases hslot : s.cidToSlot cid with
  | none => simpa only [Module2State.incrementRef, hslot] using h.later
  | some slot =>
    obtain ⟨hmax, e, he, -⟩ := exists_of_cidToSlot hslot
    have hstep := incrementRef_of_slot hslot he
    have hindex : (s.incrementRef cid).index = Function.update s.index slot
        (some { e with refCount := (e.refCount + 1) % 2 ^ 32 }) := by rw [hstep]
    have htotal : (s.incrementRef cid).totalStored = s.totalStored := by rw [hstep]
    have hdups : (s.incrementRef cid).duplicateCount = (s.duplicateCount + 1) % 2 ^ 32 := by
      rw [hstep]
    have hrefs : s.refsAt slot = e.refCount := by
      rw [refsAt, he]
      rfl
    have hle : e.refCount ≤ s.refSum := hrefs ▸ refsAt_le_refSum hmax
    have hsum := refSum_update hmax hindex
    simp only [hrefs, Option.elim_some] at hsum
    have hmax' := h.total_le
    have hmod := h.modEq
    unfold Nat.ModEq at hmod
    refine ⟨by rw [htotal]; exact hmax', ?_, fun hn => ?_⟩
    · unfold Nat.ModEq
      omega
    · obtain ⟨hold, hdup⟩ := h.exact (by omega)
      omega

/-- A new chunk comes with one reference. -/
theorem push (h : Tallied n s) {s' : Module2State} {entry : ChunkIndex}
    (hroom : s.totalStored < maxChunks) (hunused : s.index s.totalStored = none)
    (hrefs : entry.refCount = 1)
    (hindex : s'.index = Function.update s.index s.totalStored (some entry))
    (htotal : s'.totalStored = s.totalStored + 1)
    (hdups : s'.duplicateCount = s.duplicateCount) : Tallied (n + 1) s' := by
  have hsum := refSum_push hroom hunused hrefs hindex
  have hmod := h.modEq
  unfold Nat.ModEq at hmod
  refine ⟨by omega, ?_, fun hn => ?_⟩
  · unfold Nat.ModEq
    omega
  · obtain ⟨hold, hdup⟩ := h.exact (by omega)
    omega

/-- After `module2_init` each chunk has one reference. -/
theorem loaded {file : Bytes} {cs : List StoredChunk} {p : ℕ × Module2State}
    (hp : Loaded file cs p) (hroom : cs.length ≤ maxChunks) : Tallied 0 p.2.buildHash := by
  have hrefs : p.2.buildHash.refSum = p.2.buildHash.totalStored := hp.refs
  have hdups : p.2.buildHash.duplicateCount = 0 := hp.noDup
  have htotal : p.2.buildHash.totalStored = cs.length := hp.indexed.total
  refine ⟨by omega, ?_, fun _ => by omega⟩
  rw [hrefs, hdups]
  exact Nat.ModEq.rfl

theorem step {log : ChunkLog} (h : Tallied n s) (hin : InStep log s) {e : StoreEvent}
    (he : e.FaultFree) : Tallied (lifetime n e) (s.step e) := by
  cases e with
  | store fault hash data =>
    cases fault with
    | write k => exact absurd he id
    | insert => exact absurd he id
    | none =>
      rw [Module2State.step]
      rcases hin.storeChunk_cases hash data with
        ⟨-, hstore, -⟩ | ⟨i, c, -, -, -, hstore⟩ | ⟨c, -, hroom, table, -, -, -, -, hstore⟩
      · rw [hstore]
        exact h.later
      · rw [hstore]
        exact h.incrementRef _
      · rw [hstore]
        have hslot := hin.indexed.unused s.totalStored (by rw [hin.indexed.total])
        exact h.push (by rw [hin.indexed.total]; exact hroom) hslot rfl rfl rfl rfl
  | incrementRef cid => exact h.incrementRef cid
  | restart =>
    obtain ⟨p, hp, hinit⟩ := module2Init_loaded log.length_le
    rw [Module2State.step, module2Close, hin.file, hinit]
    exact loaded hp log.length_le

theorem run {log : ChunkLog} (h : Tallied n s) (hin : InStep log s) {es : List StoreEvent}
    (hes : ∀ e ∈ es, e.FaultFree) :
    Tallied (Runs.run lifetime n es) (Runs.run Module2State.step s es) := by
  induction es generalizing n log s with
  | nil => exact h
  | cons e es ih =>
    obtain ⟨he, hrest⟩ := List.forall_mem_cons.mp hes
    exact ih (h.step hin he) (hin.step he) hrest

end Tallied

/-! ### What callers see -/

/-- What holds of the store after some events: a slot describes the chunk of its id and says
where in the file it is, what is found is what was stored first, and a hash has one id. -/
structure KeepsChunks (es : List StoreEvent) (s : Module2State) : Prop where
  describes : ∀ slot entry, s.index slot = some entry →
    entry.chunkId = slot + 1 ∧
      ∃ before data after, firstStored entry.hash es = some data ∧
        data.length = entry.dataLen ∧ before.length = entry.fileOffset ∧
        s.storeFile = before ++ record entry.chunkId entry.hash data ++ after
  used : ∀ slot, (s.index slot).isSome ↔ slot < s.totalStored
  readsBack : ∀ hash, s.findByHash hash ≠ 0 →
    ∃ data, firstStored hash es = some data ∧
      ∀ bufSize, data.length ≤ bufSize → s.readChunk (s.findByHash hash) bufSize = some data
  oneId : ∀ pre fault hash data suf, es = pre ++ .store fault hash data :: suf →
    ((Runs.run step (module2Init none) pre).storeChunk fault hash data).1 ≠ 0 →
      s.findByHash hash =
          ((Runs.run step (module2Init none) pre).storeChunk fault hash data).1 ∧
        ∀ slot entry, s.index slot = some entry → entry.hash = hash →
          entry.chunkId = s.findByHash hash
  tally : s.refSum ≡ s.totalStored + s.duplicateCount [MOD 2 ^ 32]
  tally_exact : maxChunks + Runs.run lifetime 0 es < 2 ^ 32 →
    s.refSum = s.totalStored + s.duplicateCount

/-- A hash that is found is the hash of a chunk of the log. -/
theorem InStep.exists_of_findByHash {log : ChunkLog} {s : Module2State} (h : InStep log s)
    {hash : ChunkHash} (hfind : s.findByHash hash ≠ 0) :
    ∃ i c, log.chunks[i]? = some c ∧ c.hash = hash ∧ s.findByHash hash = i + 1 := by
  obtain ⟨slot, entry, hentry, hhash, hid⟩ := Module2State.exists_of_findByHash hfind
  obtain ⟨c, hc, refs, rfl⟩ := h.indexed.exists_chunk hentry
  exact ⟨slot, c, hc, hhash, hid.symm⟩

/-- The id that a store returns is the id of a chunk with that hash. -/
theorem InStep.exists_of_storeChunk {log : ChunkLog} {s : Module2State} (h : InStep log s)
    {hash : ChunkHash} {data : ChunkData} (hid : (s.storeChunk .none hash data).1 ≠ 0) :
    ∃ i c, (log.put hash data).chunks[i]? = some c ∧ c.hash = hash ∧
      (s.storeChunk .none hash data).1 = i + 1 := by
  rcases h.storeChunk_cases hash data with
    ⟨-, hstore, -⟩ | ⟨i, c, hc, hhash, hput, hstore⟩ |
    ⟨c, hnew, hroom, table, -, hhash, -, hput, hstore⟩
  · rw [hstore] at hid
    exact absurd rfl hid
  · exact ⟨i, c, by rw [hput]; exact hc, hhash, by rw [hstore]⟩
  · refine ⟨log.chunks.length, c, ?_, hhash, ?_⟩
    · rw [hput, ChunkLog.push, List.getElem?_concat_length]
    · rw [hstore]
      exact h.indexed.nextId

/-- **The chunk store keeps what it is given.** Over every sequence of stores, references and
restarts in which nothing fails, starting with no file. -/
theorem chunkStore_keeps (es : List StoreEvent) (hes : ∀ e ∈ es, e.FaultFree) :
    KeepsChunks es (Runs.run step (module2Init none) es) := by
  have hin := inStep_empty.run hes
  have hrec := recorded_run es
  have htally := (Tallied.loaded (loaded_opened []) (Nat.zero_le _)).run inStep_empty hes
  generalize hlog : Runs.run ChunkLog.step ChunkLog.empty es = log at hin hrec
  exact
    { describes := by
        intro slot entry hentry
        obtain ⟨c, hc, refs, rfl⟩ := hin.indexed.exists_chunk hentry
        obtain ⟨more, hmore⟩ := hin.record_in_file hc
        exact ⟨rfl, _, c.data, more, hrec.data c (List.mem_of_getElem? hc), rfl, rfl, hmore⟩
      used := by
        intro slot
        rw [hin.indexed.total]
        constructor
        · intro hsome
          by_contra hge
          rw [hin.indexed.unused slot (by omega)] at hsome
          contradiction
        · intro hlt
          obtain ⟨refs, hrefs⟩ := hin.indexed.entry slot _ (List.getElem?_eq_getElem hlt)
          rw [hrefs]
          rfl
      readsBack := by
        intro hash hfind
        obtain ⟨i, c, hc, rfl, hid⟩ := hin.exists_of_findByHash hfind
        refine ⟨c.data, hrec.data c (List.mem_of_getElem? hc), fun bufSize hbuf => ?_⟩
        rw [hid]
        exact hin.readChunk_eq hc hbuf
      oneId := by
        rintro pre fault hash data suf rfl hid
        obtain ⟨hpre, hrest⟩ := List.forall_mem_append.mp hes
        obtain ⟨hstore, hsuf⟩ := List.forall_mem_cons.mp hrest
        cases fault with
        | write k => exact absurd hstore id
        | insert => exact absurd hstore id
        | none =>
          obtain ⟨i, c, hc, rfl, hret⟩ := (inStep_empty.run hpre).exists_of_storeChunk hid
          have hkept : log.chunks[i]? = some c := by
            rw [← hlog, Runs.run_append, Runs.run_cons]
            obtain ⟨later, hlater⟩ := ChunkLog.prefix_run (ChunkLog.put _ c.hash data) suf
            rw [ChunkLog.step, ← hlater,
              List.getElem?_append_left (List.getElem?_eq_some_iff.mp hc).1, hc]
          have hfind := hin.findByHash_eq hkept
          refine ⟨hfind.trans hret.symm, fun slot entry hentry hhash => ?_⟩
          obtain ⟨d, hd, refs, rfl⟩ := hin.indexed.exists_chunk hentry
          exact (hin.findByHash_eq hd).symm.trans (congrArg (findByHash _) hhash)
      tally := htally.modEq
      tally_exact := fun hlife => (htally.exact hlife).1 }

/-- Two bytes are stored under a hash, and the process starts again. -/
theorem chunkStore_keeps_restarted :
    KeepsChunks
      [.store .none ⟨List.replicate 32 7, by decide⟩ ⟨[1, 2], by decide⟩, .restart]
      (Runs.run step (module2Init none)
        [.store .none ⟨List.replicate 32 7, by decide⟩ ⟨[1, 2], by decide⟩, .restart]) :=
  chunkStore_keeps _ (by simp [StoreEvent.FaultFree])

end SecureWan.ByteCache
