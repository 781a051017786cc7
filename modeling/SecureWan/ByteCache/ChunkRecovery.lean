import SecureWan.ByteCache.TornRecords
import SecureWan.ByteCache.ChunkRuns

/-!
# Recovery of the chunk store

Two ways to end up with a file that does not end with a whole record: a crash that leaves a
prefix of it, and a call of `module2_store_chunk` whose write fails. In both the store goes on
as if nothing had happened exactly when no part of a record is left.
-/

namespace SecureWan.ByteCache

open Module2State

/-! ### A prefix of the file -/

/-- The chunks whose records are whole within the first bytes of the file. -/
def ChunkLog.cutAt (k : ℕ) (log : ChunkLog) : ChunkLog where
  chunks := RecordLog.whole recordAt k log.chunks
  nodup := log.nodup.sublist ((List.take_sublist _ _).map _)
  length_le := (List.take_sublist _ _).length_le.trans log.length_le

/-- What is found can be read and is what the log has; all that the log has is found. -/
structure Answers (log : ChunkLog) (s : Module2State) : Prop where
  resolves : ∀ hash, s.findByHash hash ≠ 0 → ∃ c ∈ log.chunks, c.hash = hash ∧
    ∀ bufSize, c.data.length ≤ bufSize → s.readChunk (s.findByHash hash) bufSize = some c.data
  found : ∀ c ∈ log.chunks, s.findByHash c.hash ≠ 0

theorem InStep.answers {log : ChunkLog} {s : Module2State} (h : InStep log s) :
    Answers log s where
  resolves hash hfind := by
    obtain ⟨i, c, hc, rfl, hid⟩ := h.exists_of_findByHash hfind
    refine ⟨c, List.mem_of_getElem? hc, rfl, fun bufSize hbuf => ?_⟩
    rw [hid]
    exact h.readChunk_eq hc hbuf
  found c hc := by
    obtain ⟨i, hi⟩ := List.mem_iff_getElem?.mp hc
    rw [h.findByHash_eq hi]
    omega

/-- The chunks stored by some events. -/
def stored (es : List StoreEvent) : ChunkLog := Runs.run ChunkLog.step ChunkLog.empty es

/-- The file after some events. -/
def fileAfter (es : List StoreEvent) : Bytes :=
  (Runs.run step (module2Init none) es).storeFile

/-- The store that `module2_init` makes of the first bytes of that file. -/
def recovered (es : List StoreEvent) (k : ℕ) : Module2State :=
  module2Init (some ((fileAfter es).take k))

/-- Whatever is stored next and however often the process starts again, lookups and reads
give the chunks that were whole and those stored since. -/
def Recovers (es : List StoreEvent) (k : ℕ) : Prop :=
  ∀ later, (∀ e ∈ later, e.FaultFree) →
    Answers (Runs.run ChunkLog.step ((stored es).cutAt k) later)
      (Runs.run step (recovered es k) later)

/-- A chunk stored after a crash is lost again when a rest of a header is in the file. -/
theorem Trails.not_answers {log : ChunkLog} {rest : Bytes} {s : Module2State}
    (h : Trails log rest s) (hne : rest ≠ []) (hshort : rest.length < hdrSize)
    (hroom : log.chunks.length < maxChunks) :
    ∃ later, (∀ e ∈ later, e.FaultFree) ∧
      ¬ Answers (Runs.run ChunkLog.step log later) (Runs.run step s later) := by
  let data : ChunkData := ⟨[0], by decide⟩
  obtain ⟨hash, hnew, hlost⟩ := h.exists_lost hne hshort hroom (rfl : data.val.length = 1)
  refine ⟨[.store .none hash data, .restart], by simp [StoreEvent.FaultFree], fun hall => ?_⟩
  have hput : log.put hash data = log.push ⟨hash, [0], by decide, by decide⟩ hnew hroom := by
    rw [ChunkLog.put, dif_neg (by decide), dif_pos hnew, dif_pos hroom]
  apply hall.found ⟨hash, [0], by decide, by decide⟩ _ hlost
  simp only [Runs.run_cons, Runs.run_nil, ChunkLog.step, hput, ChunkLog.push,
    List.mem_append, List.mem_singleton, or_true]

/-- There is no recovery from a torn record: either it is indexed, or a record stored behind
it is lost. -/
theorem not_answers_torn {log : ChunkLog} (hroom : log.chunks.length < maxChunks)
    {c : StoredChunk} (hnew : c.hash ∉ log.hashes) {n : ℕ} (hpos : 0 < n)
    (hlt : n < (recordAt log.chunks.length c).length) :
    ∃ later, (∀ e ∈ later, e.FaultFree) ∧ ¬ Answers (Runs.run ChunkLog.step log later)
      (Runs.run step (module2Init (some (storeFileOf log.chunks ++
        (recordAt log.chunks.length c).take n))) later) := by
  by_cases hhdr : hdrSize ≤ n
  · refine ⟨[], by simp, fun hall => hnew ?_⟩
    have hfind := findByHash_torn_data hroom hnew hhdr
    obtain ⟨d, hd, hhash, -⟩ := hall.resolves c.hash (by
      rw [Runs.run_nil, hfind]
      omega)
    rw [← hhash]
    exact List.mem_map_of_mem hd
  · have hlen : ((recordAt log.chunks.length c).take n).length = n :=
      List.length_take_of_le (Nat.le_of_lt hlt)
    have hshort : ((recordAt log.chunks.length c).take n).length < hdrSize := by omega
    have hne : (recordAt log.chunks.length c).take n ≠ [] :=
      List.ne_nil_of_length_pos (by omega)
    exact (trails_module2Init log hshort).not_answers hne hshort hroom

/-- **Recovery.** A store that went on without faults recovers from a prefix of its file
exactly when the prefix ends where a record ends. -/
theorem recovers_iff (es : List StoreEvent) (hes : ∀ e ∈ es, e.FaultFree) (k : ℕ) :
    Recovers es k ↔ (fileAfter es).take k = storeFileOf ((stored es).cutAt k).chunks := by
  have hfile : fileAfter es = storeFileOf (stored es).chunks := (inStep_empty.run hes).file
  constructor
  · intro h
    rw [hfile]
    rcases RecordLog.take_encode k (stored es).chunks with
      hwhole | ⟨c, rest, n, hsplit, hpos, hlt, hcut⟩
    · exact hwhole
    · exfalso
      have hlen := (stored es).length_le
      have hnodup := (stored es).nodup
      rw [hsplit, List.length_append, List.length_cons] at hlen
      rw [hsplit, List.map_append, List.map_cons] at hnodup
      have hroom : ((stored es).cutAt k).chunks.length < maxChunks := by
        change (RecordLog.whole recordAt k (stored es).chunks).length < maxChunks
        omega
      have hnew : c.hash ∉ ((stored es).cutAt k).hashes := fun hmem =>
        (List.nodup_append.mp hnodup).2.2 _ hmem _ List.mem_cons_self rfl
      obtain ⟨later, hlater, hnot⟩ := not_answers_torn hroom hnew hpos hlt
      apply hnot
      have hrec := h later hlater
      rw [recovered, hfile] at hrec
      rwa [show (storeFileOf (stored es).chunks).take k = _ from hcut] at hrec
  · intro hwhole later hlater
    have hin := inStep_module2Init ((stored es).cutAt k)
    rw [← hwhole] at hin
    exact (hin.run hlater).answers

/-- A record is cut after the first byte of its data. -/
theorem recovers_iff_cutData :
    Recovers [.store .none ⟨List.replicate 32 7, by decide⟩ ⟨[1, 2], by decide⟩] 41 ↔
      (fileAfter [.store .none ⟨List.replicate 32 7, by decide⟩ ⟨[1, 2], by decide⟩]).take 41 =
        storeFileOf ((stored
          [.store .none ⟨List.replicate 32 7, by decide⟩ ⟨[1, 2], by decide⟩]).cutAt 41).chunks :=
  recovers_iff _ (by simp [StoreEvent.FaultFree]) 41

/-- The hash of that record is found after the restart, and the read comes back short. -/
theorem cutData_found_unreadable :
    (recovered [.store .none ⟨List.replicate 32 7, by decide⟩ ⟨[1, 2], by decide⟩]
        41).findByHash ⟨List.replicate 32 7, by decide⟩ = 1 ∧
      (recovered [.store .none ⟨List.replicate 32 7, by decide⟩ ⟨[1, 2], by decide⟩]
        41).readChunk 1 65536 = none := by
  decide

/-! ### A call that fails -/

namespace Module2State

variable (s : Module2State)

/-- A call of `module2_store_chunk` gets as far as writing a record. -/
def ReachesFile (hash : ChunkHash) (data : ChunkData) : Prop :=
  data.val ≠ [] ∧ s.fp = true ∧ s.hashTable ≠ none ∧ s.findByHash hash = 0 ∧
    s.totalStored < maxChunks

/-- If the event is a call that gets as far as the file and fails, the first write fails and
puts nothing into the file. -/
def LeavesNoBytes : StoreEvent → Prop
  | .store fault hash data => s.ReachesFile hash data → fault = .none ∨ fault = .write 0
  | .incrementRef _ => True
  | .restart => True

/-- No lookup and no read tells two states apart, whatever happens next. -/
def Indistinguishable (t : Module2State) : Prop :=
  ∀ later, (∀ hash, (Runs.run step s later).findByHash hash =
      (Runs.run step t later).findByHash hash) ∧
    ∀ cid bufSize, (Runs.run step s later).readChunk cid bufSize =
      (Runs.run step t later).readChunk cid bufSize

/-- If the event is a call of `module2_store_chunk` that returns 0, it is as if it had not
been made. -/
def FailsHarmlessly : StoreEvent → Prop
  | .store fault hash data => (s.storeChunk fault hash data).1 = 0 →
      (s.step (.store fault hash data)).Indistinguishable s
  | .incrementRef _ => True
  | .restart => True

variable {s} {fault : StoreFault} {hash : ChunkHash} {data : ChunkData}

/-- Faults do not matter for a call that does not get as far as the file. -/
theorem storeChunk_of_not_reachesFile (h : ¬ s.ReachesFile hash data) :
    s.storeChunk fault hash data = s.storeChunk .none hash data := by
  unfold storeChunk
  by_cases hopen : data.val = [] ∨ s.fp = false
  · rw [if_pos hopen, if_pos hopen]
  · rw [if_neg hopen, if_neg hopen]
    cases htable : s.hashTable with
    | none => rfl
    | some table =>
      by_cases hfind : s.findByHash hash ≠ 0
      · simp only [if_pos hfind]
      · by_cases hfull : maxChunks ≤ s.totalStored
        · simp only [if_neg hfind, if_pos hfull]
        · exfalso
          apply h
          refine ⟨fun hdata => hopen (.inl hdata), ?_, by simp [htable], by omega, by omega⟩
          simpa using fun hfp => hopen (.inr hfp)

theorem storeChunk_of_reachesFile (fault : StoreFault) (h : s.ReachesFile hash data) :
    ∃ table, s.hashTable = some table ∧
      s.storeChunk fault hash data = s.appendChunk table fault hash data.val := by
  obtain ⟨hdata, hfp, htable, hfind, hroom⟩ := h
  obtain ⟨table, htable⟩ := Option.ne_none_iff_exists'.mp htable
  exact ⟨table, htable, storeChunk_of_new hdata hfp htable hfind hroom⟩

/-- A call that leaves no bytes when it fails is one without faults, or one that has done
nothing. -/
theorem storeChunk_of_leavesNoBytes (h : s.LeavesNoBytes (.store fault hash data)) :
    s.storeChunk fault hash data = s.storeChunk .none hash data ∨
      s.storeChunk fault hash data = (0, s) := by
  by_cases hreach : s.ReachesFile hash data
  · rcases h hreach with rfl | rfl
    · exact .inl rfl
    · obtain ⟨table, -, hstore⟩ := storeChunk_of_reachesFile (.write 0) hreach
      exact .inr (by rw [hstore, appendChunk, List.take_zero, List.append_nil])
  · exact .inl (storeChunk_of_not_reachesFile hreach)

end Module2State

namespace InStep

variable {log : ChunkLog} {s : Module2State} {fault : StoreFault} {hash : ChunkHash}
  {data : ChunkData}

/-- What a call that fails has left in the file: a part of the record, or all of it. -/
theorem file_of_fails (h : InStep log s) (hreach : s.ReachesFile hash data)
    (hfails : fault ≠ .none ∧ fault ≠ .write 0) :
    ∃ c : StoredChunk, c.hash = hash ∧ ∃ n, 0 < n ∧
      (s.storeChunk fault hash data).1 = 0 ∧
      (s.step (.store fault hash data)).storeFile =
        storeFileOf log.chunks ++ (recordAt log.chunks.length c).take n ∧
      (n < hdrSize → { s.step (.store fault hash data) with
        storeFile := storeFileOf log.chunks } = s) := by
  obtain ⟨table, -, hstore⟩ := storeChunk_of_reachesFile fault hreach
  let c : StoredChunk := ⟨hash, data.val, List.length_pos_iff.mpr hreach.1, data.property⟩
  have hrec : record s.nextChunkId hash data.val = recordAt log.chunks.length c := by
    rw [h.indexed.nextId]
    rfl
  refine ⟨c, rfl, ?_⟩
  cases fault with
  | none => exact absurd rfl hfails.1
  | write n =>
    have hpos : 0 < n := Nat.pos_of_ne_zero fun hzero => hfails.2 (by rw [hzero])
    rw [Module2State.step, hstore, appendChunk, hrec]
    exact ⟨n, hpos, rfl, by rw [h.file], fun _ => by rw [← h.file]⟩
  | insert =>
    have hlen := length_recordAt log.chunks.length c
    have hdr : 0 < hdrSize := by decide
    rw [Module2State.step, hstore, appendChunk, hrec]
    refine ⟨(recordAt log.chunks.length c).length, by omega, rfl, ?_, fun hlt => by omega⟩
    rw [List.take_length, h.file]

/-- A call that fails and leaves a part of its record shows after a restart: the chunk that
was not stored is found, or a chunk stored next is lost. -/
theorem not_indistinguishable (h : InStep log s) (hreach : s.ReachesFile hash data)
    (hfails : fault ≠ .none ∧ fault ≠ .write 0) :
    ¬ (s.step (.store fault hash data)).Indistinguishable s := by
  intro hsame
  obtain ⟨c, rfl, n, hpos, -, hfile, htrails⟩ := h.file_of_fails hreach hfails
  have hroom : log.chunks.length < maxChunks := by
    rw [← h.indexed.total]
    exact hreach.2.2.2.2
  have hnew : c.hash ∉ log.hashes := by
    intro hmem
    obtain ⟨d, hd, hhash⟩ := List.mem_map.mp hmem
    obtain ⟨i, hi⟩ := List.mem_iff_getElem?.mp hd
    have hfound := h.findByHash_eq hi
    rw [hhash, hreach.2.2.2.1] at hfound
    omega
  by_cases hhdr : hdrSize ≤ n
  · have hfind := (hsame [.restart]).1 c.hash
    have hclean : ∀ e ∈ [StoreEvent.restart], e.FaultFree := by simp [StoreEvent.FaultFree]
    have hold := (h.run hclean).findByHash_of_notMem hnew
    have htorn := findByHash_torn_data hroom hnew hhdr
    rw [← hfile] at htorn
    rw [hold] at hfind
    exact absurd (htorn.symm.trans hfind) (by omega)
  · have hlen : ((recordAt log.chunks.length c).take n).length ≤ n := List.length_take_le _ _
    have hne : (recordAt log.chunks.length c).take n ≠ [] := by
      rw [Ne, List.take_eq_nil_iff]
      rintro (hzero | hnil)
      · omega
      · exact record_ne_nil _ _ _ hnil
    have hin : Trails log ((recordAt log.chunks.length c).take n)
        (s.step (.store fault c.hash data)) := by
      refine ⟨hfile, ?_⟩
      rw [htrails (by omega)]
      exact h
    let one : ChunkData := ⟨[0], by decide⟩
    obtain ⟨next, hnext, hlost⟩ := hin.exists_lost hne (by omega) hroom
      (rfl : one.val.length = 1)
    have hput : log.put next one = log.push ⟨next, [0], by decide, by decide⟩ hnext hroom := by
      rw [ChunkLog.put, dif_neg (by decide), dif_pos hnext, dif_pos hroom]
    have hclean : ∀ e ∈ [StoreEvent.store .none next one, .restart], e.FaultFree := by
      simp [StoreEvent.FaultFree]
    have hkept := h.run hclean
    rw [Runs.run_cons, Runs.run_cons, Runs.run_nil, ChunkLog.step, ChunkLog.step, hput] at hkept
    have hfound := hkept.findByHash_eq (by rw [ChunkLog.push, List.getElem?_concat_length])
    have hsame' := (hsame [.store .none next one, .restart]).1 next
    rw [hlost] at hsame'
    exact absurd (hsame'.trans hfound) (by omega)

/-- A call that fails is harmless exactly when it leaves no bytes in the file. -/
theorem failsHarmlessly_iff (h : InStep log s) (e : StoreEvent) :
    s.FailsHarmlessly e ↔ s.LeavesNoBytes e := by
  cases e with
  | store fault hash data =>
    constructor
    · intro hharmless hreach
      by_contra hnot
      have hfails := not_or.mp hnot
      obtain ⟨c, -, n, -, hret, -⟩ := h.file_of_fails hreach hfails
      exact h.not_indistinguishable hreach hfails (hharmless hret)
    · intro hleaves hret
      have hsame : s.step (.store fault hash data) = s := by
        rw [Module2State.step]
        rcases storeChunk_of_leavesNoBytes hleaves with hstore | hstore
        · rw [hstore] at hret ⊢
          rcases h.storeChunk_cases hash data with
            ⟨-, hnone, -⟩ | ⟨i, c, -, -, -, hdup⟩ | ⟨c, -, -, table, -, -, -, -, hpush⟩
          · rw [hnone]
          · rw [hdup] at hret
            exact absurd hret (Nat.succ_ne_zero i)
          · rw [hpush] at hret
            exact absurd (h.indexed.nextId.symm.trans hret) (Nat.succ_ne_zero _)
        · rw [hstore]
      rw [hsame]
      exact fun later => ⟨fun _ => rfl, fun _ _ => rfl⟩
  | incrementRef cid => exact Iff.rfl
  | restart => exact Iff.rfl

/-- A store in which calls that fail leave no bytes stays in step with a log. -/
theorem step_of_leavesNoBytes (h : InStep log s) {e : StoreEvent} (he : s.LeavesNoBytes e) :
    ∃ log', InStep log' (s.step e) := by
  cases e with
  | store fault hash data =>
    have hclean : (StoreEvent.store .none hash data).FaultFree := trivial
    rcases storeChunk_of_leavesNoBytes he with hstore | hstore
    · have hstep := h.step hclean
      rw [Module2State.step, ← hstore] at hstep
      exact ⟨_, hstep⟩
    · exact ⟨log, by rw [Module2State.step, hstore]; exact h⟩
  | incrementRef cid => exact ⟨log, h.incrementRef cid⟩
  | restart => exact ⟨_, h.step (show StoreEvent.restart.FaultFree from trivial)⟩

end InStep

/-- **Calls that fail.** In a run the calls that fail are as if they had not been made exactly
when none of them leaves a byte in the file. -/
theorem failures_harmless_iff (es : List StoreEvent) :
    Runs.StepsMeet step FailsHarmlessly (module2Init none) es ↔
      Runs.StepsMeet step LeavesNoBytes (module2Init none) es := by
  have hiff : ∀ (s : Module2State) (e : StoreEvent), (∃ log, InStep log s) →
      (s.FailsHarmlessly e ↔ s.LeavesNoBytes e) :=
    fun s e ⟨_, h⟩ => h.failsHarmlessly_iff e
  have hinv : ∀ (s : Module2State) (e : StoreEvent), (∃ log, InStep log s) →
      s.LeavesNoBytes e → ∃ log, InStep log (s.step e) :=
    fun s e ⟨_, h⟩ he => h.step_of_leavesNoBytes he
  exact Runs.stepsMeet_congr hiff hinv ⟨_, inStep_empty⟩ es

/-- The write fails after the first byte of the data. The call returns 0, and after a restart
the chunk is found. -/
theorem failedWrite_found :
    ((module2Init none).storeChunk (.write 41) ⟨List.replicate 32 7, by decide⟩
        ⟨[1, 2], by decide⟩).1 = 0 ∧
      (Runs.run step (module2Init none)
        [.store (.write 41) ⟨List.replicate 32 7, by decide⟩ ⟨[1, 2], by decide⟩,
          .restart]).findByHash ⟨List.replicate 32 7, by decide⟩ = 1 ∧
      (Runs.run step (module2Init none) [.restart]).findByHash
        ⟨List.replicate 32 7, by decide⟩ = 0 := by
  decide

end SecureWan.ByteCache
