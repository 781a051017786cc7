import SecureWan.ByteCache.ChunkLog
import Mathlib.Data.Finset.Card

/-!
# Torn records

What `module2_init` makes of a file that ends within a record, after a crash or a write that
failed. A record of which the header is there is indexed like any other. Of a shorter rest
nothing is indexed, but the next record is written behind it, and the next restart takes the
rest for the beginning of a header: the record behind it is lost.
-/

namespace SecureWan.ByteCache

open Module2State

/-! ### A torn record with its header -/

/-- A record is indexed when its header is there, with as much of its data as there is. -/
theorem module2Init_torn_data {log : ChunkLog} (hroom : log.chunks.length < maxChunks)
    (c : StoredChunk) {n : ℕ} (hn : hdrSize ≤ n) :
    ∃ p, Loaded (storeFileOf log.chunks ++ (recordAt log.chunks.length c).take n)
        (log.chunks ++ [c]) p ∧
      module2Init (some (storeFileOf log.chunks ++ (recordAt log.chunks.length c).take n)) =
        p.2.buildHash := by
  obtain ⟨k, rfl⟩ := Nat.exists_eq_add_of_le hn
  have hlen := length_header (log.chunks.length + 1) c.data.length c.hash
  have htorn : (recordAt log.chunks.length c).take (hdrSize + k) =
      header (log.chunks.length + 1) c.data.length c.hash ++ c.data.take k := by
    rw [recordAt, record, ← hlen, List.take_length_add_append]
  rw [htorn]
  obtain ⟨p, hp, hload⟩ := exists_loaded log.length_le
    (header (log.chunks.length + 1) c.data.length c.hash ++ c.data.take k)
  obtain ⟨p', hp', hnext⟩ := hp.step c hroom
  have hrest : (header (log.chunks.length + 1) c.data.length c.hash ++ c.data.take k).drop
      (hdrSize + c.data.length) = [] := by
    apply List.drop_eq_nil_of_le
    rw [List.length_append, hlen, List.length_take]
    omega
  refine ⟨p', hp', ?_⟩
  rw [module2Init, hload, RecordLog.scan_of_some (hnext _), hrest,
    RecordLog.scan_of_none (loadRecord_of_short (by simp [hdrSize]))]

/-- The hash of a torn record is found when its header is there. -/
theorem findByHash_torn_data {log : ChunkLog} (hroom : log.chunks.length < maxChunks)
    {c : StoredChunk} (hnew : c.hash ∉ log.hashes) {n : ℕ} (hn : hdrSize ≤ n) :
    (module2Init (some (storeFileOf log.chunks ++
      (recordAt log.chunks.length c).take n))).findByHash c.hash = log.chunks.length + 1 := by
  obtain ⟨p, hp, hinit⟩ := module2Init_torn_data hroom c hn
  have hin : InStep (log.push c hnew hroom) _ := hp.inStep
  rw [hinit]
  exact hin.findByHash_eq (by rw [ChunkLog.push, List.getElem?_concat_length])

/-! ### The rest of a header -/

/-- The store is in step with a log, but for something behind the records in the file. -/
structure Trails (log : ChunkLog) (rest : Bytes) (s : Module2State) : Prop where
  file : s.storeFile = storeFileOf log.chunks ++ rest
  inStep : InStep log { s with storeFile := storeFileOf log.chunks }

/-- Of less than a header, nothing is indexed. -/
theorem trails_module2Init (log : ChunkLog) {rest : Bytes} (hrest : rest.length < hdrSize) :
    Trails log rest (module2Init (some (storeFileOf log.chunks ++ rest))) := by
  obtain ⟨p, hp, hload⟩ := exists_loaded log.length_le rest
  rw [RecordLog.scan_of_none (loadRecord_of_short hrest)] at hload
  have hinit : module2Init (some (storeFileOf log.chunks ++ rest)) = p.2.buildHash := by
    rw [module2Init, hload]
  rw [hinit]
  exact ⟨hp.file, hp.inStep⟩

/-- When only one more header is in a file behind some records, only those records and the
hash in that header are indexed. -/
theorem index_module2Init (log : ChunkLog) {rest : Bytes}
    (hrest : rest.length ≤ 2 * hdrSize) {slot : ℕ} {entry : ChunkIndex}
    (hentry : (module2Init (some (storeFileOf log.chunks ++ rest))).index slot = some entry) :
    entry.hash ∈ log.hashes ∨ entry.hash.val = rest.readAt 8 hashSize := by
  obtain ⟨p, hp, hload⟩ := exists_loaded log.length_le rest
  have hold : p.2.index slot = some entry → entry.hash ∈ log.hashes := by
    intro h
    obtain ⟨c, hc, refs, rfl⟩ := hp.indexed.exists_chunk h
    exact List.mem_map_of_mem (List.mem_of_getElem? hc)
  have hinit : (module2Init (some (storeFileOf log.chunks ++ rest))).index =
      (RecordLog.scan loadRecord (rest.length + 1) p rest).2.index := by
    rw [module2Init, hload]
    rfl
  rw [hinit] at hentry
  cases hnext : loadRecord p rest with
  | none =>
    rw [RecordLog.scan_of_none hnext] at hentry
    exact .inl (hold hentry)
  | some q =>
    obtain ⟨p', n⟩ := q
    obtain ⟨-, hn, e, he, hindex⟩ := loadRecord_some hnext
    have hshort : (rest.drop n).length < hdrSize := by
      rw [List.length_drop]
      rw [hdrSize] at *
      omega
    rw [RecordLog.scan_of_some hnext, RecordLog.scan_of_none (loadRecord_of_short hshort),
      hindex] at hentry
    by_cases hslot : slot = p.2.totalStored
    · rw [hslot, Function.update_self] at hentry
      obtain rfl := Option.some.inj hentry
      exact .inr he
    · rw [Function.update_of_ne hslot] at hentry
      exact .inl (hold hentry)

/-! ### Hashes that are new -/

/-- A hash with a given first byte, by its number. -/
def numberedHash (first : UInt8) (j : ℕ) : ChunkHash :=
  ⟨first :: (le32 j ++ List.replicate 27 0), by simp [hashSize]⟩

theorem numberedHash_inj {first : UInt8} {i j : ℕ} (hi : i < 2 ^ 32) (hj : j < 2 ^ 32)
    (h : numberedHash first i = numberedHash first j) : i = j := by
  have htail := (List.cons.inj (congrArg Subtype.val h)).2
  have hfield : (le32 i).field32 0 = (le32 j).field32 0 := by
    rw [List.append_cancel_right htail]
  rwa [field32_le32, field32_le32, Nat.mod_eq_of_lt hi, Nat.mod_eq_of_lt hj] at hfield

/-- There are more hashes without a given first byte than there are chunks. -/
theorem exists_new_hash (first : UInt8) {hs : List ChunkHash} (hlen : hs.length ≤ maxChunks) :
    ∃ hash : ChunkHash, hash ∉ hs ∧ hash.val.byteAt 0 ≠ first := by
  by_contra hall
  simp only [not_exists, not_and, not_not] at hall
  have hmem : ∀ j, numberedHash (first + 1) j ∈ hs := by
    intro j
    by_contra hnew
    have hfirst : first + 1 = first := hall _ hnew
    simp at hfirst
  have hcard : (Finset.range (maxChunks + 1)).card ≤ hs.toFinset.card := by
    apply Finset.card_le_card_of_injOn (numberedHash (first + 1))
    · intro j _
      simpa using hmem j
    · intro i hi j hj h
      have hi' := Finset.mem_range.mp hi
      have hj' := Finset.mem_range.mp hj
      rw [maxChunks] at hi' hj'
      exact numberedHash_inj (by omega) (by omega) h
  have hle := hs.toFinset_card_le
  rw [Finset.card_range] at hcard
  omega

/-! ### The record that is lost -/

/-- A new chunk is written behind whatever is in the file. -/
theorem Trails.storeFile_step {log : ChunkLog} {rest : Bytes} {s : Module2State}
    (h : Trails log rest s) (hroom : log.chunks.length < maxChunks) {hash : ChunkHash}
    (hnew : hash ∉ log.hashes) {data : ChunkData} (hdata : data.val ≠ []) :
    (s.step (.store .none hash data)).storeFile =
      storeFileOf log.chunks ++ (rest ++ record (log.chunks.length + 1) hash data.val) := by
  obtain ⟨table, htable, -⟩ := h.inStep.table
  have htable' : s.hashTable = some table := htable
  have hfp : s.fp = true := h.inStep.fp
  have hfind : s.findByHash hash = 0 := h.inStep.findByHash_of_notMem hnew
  have htotal : s.totalStored = log.chunks.length := h.inStep.indexed.total
  have hnext : s.nextChunkId = log.chunks.length + 1 := h.inStep.indexed.nextId
  rw [Module2State.step, storeChunk_of_new hdata hfp htable' hfind (by omega), appendChunk,
    ← List.append_assoc, ← h.file, ← hnext]

/-- **A rest of a header loses the next record.** Behind less than a header, a chunk can be
stored whose hash is not found any more after a restart. -/
theorem Trails.exists_lost {log : ChunkLog} {rest : Bytes} {s : Module2State}
    (h : Trails log rest s) (hne : rest ≠ []) (hshort : rest.length < hdrSize)
    (hroom : log.chunks.length < maxChunks) {data : ChunkData} (hdata : data.val.length = 1) :
    ∃ hash, hash ∉ log.hashes ∧
      (Runs.run step s [.store .none hash data, .restart]).findByHash hash = 0 := by
  -- the restart takes a byte of the rest or of the header behind it for the first of a hash
  let fixed := rest ++ (le32 (log.chunks.length + 1) ++ le32 1)
  have hhashes : log.hashes.length ≤ maxChunks := by
    rw [ChunkLog.hashes, List.length_map]
    exact log.length_le
  obtain ⟨hash, hnew, hfirst⟩ := exists_new_hash (fixed.byteAt 8) hhashes
  refine ⟨hash, hnew, ?_⟩
  have hdata' : data.val ≠ [] := List.ne_nil_of_length_pos (by omega)
  have hstore := h.storeFile_step hroom hnew hdata'
  rw [Runs.run_cons, Runs.run_cons, Runs.run_nil]
  change (module2Init (some (s.step (.store .none hash data)).storeFile)).findByHash hash = 0
  rw [hstore]
  by_contra hfound
  obtain ⟨slot, entry, hentry, hentryHash, -⟩ := exists_of_findByHash hfound
  have hlen : (rest ++ record (log.chunks.length + 1) hash data.val).length ≤ 2 * hdrSize := by
    rw [List.length_append, length_record]
    omega
  rcases index_module2Init log hlen hentry with hmem | hbytes
  · rw [hentryHash] at hmem
    exact hnew hmem
  · apply hfirst
    have hpos := List.length_pos_iff.mpr hne
    have hfixed : rest ++ record (log.chunks.length + 1) hash data.val =
        fixed ++ (hash.val ++ data.val) := by
      simp only [record, header, hdata, List.append_assoc, fixed]
    have hbyte : 8 < fixed.length := by
      simp only [fixed, List.length_append, length_le32]
      omega
    rw [← hentryHash, hbytes, Bytes.byteAt_readAt (by decide), hfixed,
      Bytes.byteAt_append_left hbyte]

end SecureWan.ByteCache
