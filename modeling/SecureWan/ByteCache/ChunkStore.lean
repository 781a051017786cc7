import SecureWan.Lib.Bytes
import SecureWan.Lib.RecordLog
import SecureWan.Lib.Runs
import Mathlib.Logic.Function.Basic

/-!
# The chunk store

`module2.c` keeps each distinct chunk once: its record is at the end of a file, an index in
memory says where, and a hash table leads from a hash to the slot of the index. The file is
what is left of it when the process ends; `module2_init` goes over the file to build the
index, and fills the table from the index. The table is an exact map here. Writing a record
and entering it in the table can fail.
-/

namespace SecureWan.ByteCache

/-- `MODULE2_MAX_CHUNKS`. -/
def maxChunks : ℕ := 262144

/-- `MODULE2_HASH_SIZE`. -/
def hashSize : ℕ := 32

/-- `MODULE2_HDR_SIZE`: the chunk id, the length of the data and the hash. -/
def hdrSize : ℕ := 40

/-- The longest data that `module2_init` takes. Callers give at most `CHUNK_SIZE` bytes. -/
def maxDataLen : ℕ := 65536

/-- A hash of a chunk. -/
abbrev ChunkHash := {hash : Bytes // hash.length = hashSize}

/-- The data of a chunk. -/
abbrev ChunkData := {data : Bytes // data.length ≤ maxDataLen}

/-- `chunk_index`, for a slot that is used. -/
structure ChunkIndex where
  chunkId : ℕ
  hash : ChunkHash
  fileOffset : ℕ
  dataLen : ℕ
  refCount : ℕ

/-- The `rte_hash` table, from a hash to a slot. -/
abbrev HashTable := ChunkHash → Option ℕ

/-- `rte_hash_add_key_data`. -/
def HashTable.addKeyData (table : HashTable) (hash : ChunkHash) (slot : ℕ) : HashTable :=
  Function.update table hash (some slot)

/-- `module2_state`, with the bytes of `MODULE2_STORE_FILE`. A slot of the index that is not
used is `none`. -/
structure Module2State where
  index : ℕ → Option ChunkIndex
  totalStored : ℕ
  nextChunkId : ℕ
  duplicateCount : ℕ
  fp : Bool
  hashTable : Option HashTable
  storeFile : Bytes

/-- The fields of a record before its data. -/
def header (cid dlen : ℕ) (hash : ChunkHash) : Bytes := le32 cid ++ le32 dlen ++ hash.val

/-- What `module2_store_chunk` writes. -/
def record (cid : ℕ) (hash : ChunkHash) (data : Bytes) : Bytes :=
  header cid data.length hash ++ data

/-- How a call of `module2_store_chunk` that gets as far as the file goes: well, with a write
that fails when some bytes of the record are in the file, or with a table that does not take
the hash. -/
inductive StoreFault where
  | none
  | write (written : ℕ)
  | insert

namespace Module2State

variable (s : Module2State)

/-- `cid_to_slot`. -/
def cidToSlot (cid : ℕ) : Option ℕ :=
  if cid = 0 ∨ s.nextChunkId < cid then none
  else if maxChunks ≤ cid - 1 then none
  else
    match s.index (cid - 1) with
    | none => none
    | some entry => if entry.chunkId = cid then some (cid - 1) else none

/-- `find_locked`, and so `module2_find_by_hash`. -/
def findByHash (hash : ChunkHash) : ℕ :=
  match s.hashTable with
  | none => 0
  | some table =>
    match table hash with
    | none => 0
    | some slot =>
      if maxChunks ≤ slot then 0
      else
        match s.index slot with
        | none => 0
        | some entry => if entry.hash = hash then entry.chunkId else 0

/-- `module2_increment_ref`. -/
def incrementRef (cid : ℕ) : Module2State :=
  match s.cidToSlot cid with
  | none => s
  | some slot =>
    { s with
      index := Function.update s.index slot
        ((s.index slot).map fun entry =>
          { entry with refCount := (entry.refCount + 1) % 2 ^ 32 })
      duplicateCount := (s.duplicateCount + 1) % 2 ^ 32 }

/-- The next slot of the index is used for an entry. -/
def pushIndex (entry : ChunkIndex) : Module2State :=
  { s with
    index := Function.update s.index s.totalStored (some entry)
    totalStored := s.totalStored + 1 }

/-- The part of `module2_store_chunk` that writes the record of a new chunk and enters it in
the index and the table. -/
def appendChunk (table : HashTable) (fault : StoreFault) (hash : ChunkHash) (data : Bytes) :
    ℕ × Module2State :=
  let written := record s.nextChunkId hash data
  match fault with
  | .write n => (0, { s with storeFile := s.storeFile ++ written.take n })
  | .insert =>
    (0, { s with
      index := Function.update s.index s.totalStored none
      storeFile := s.storeFile ++ written })
  | .none =>
    (s.nextChunkId, { s.pushIndex ⟨s.nextChunkId, hash, s.storeFile.length, data.length, 1⟩ with
      nextChunkId := (s.nextChunkId + 1) % 2 ^ 32
      hashTable := some (table.addKeyData hash s.totalStored)
      storeFile := s.storeFile ++ written })

/-- `module2_store_chunk`: the result and the state after it. -/
def storeChunk (fault : StoreFault) (hash : ChunkHash) (data : ChunkData) : ℕ × Module2State :=
  if data.val = [] ∨ s.fp = false then (0, s)
  else
    match s.hashTable with
    | none => (0, s)
    | some table =>
      if s.findByHash hash ≠ 0 then (s.findByHash hash, s.incrementRef (s.findByHash hash))
      else if maxChunks ≤ s.totalStored then (0, s)
      else s.appendChunk table fault hash data.val

/-- `module2_read_chunk`: what it puts into the buffer when it does not return 0. -/
def readChunk (cid bufSize : ℕ) : Option Bytes :=
  if cid = 0 ∨ s.fp = false then none
  else
    match s.cidToSlot cid with
    | none => none
    | some slot =>
      match s.index slot with
      | none => none
      | some entry =>
        if bufSize < entry.dataLen then none
        else
          let bytes := (s.storeFile.drop (entry.fileOffset + hdrSize)).take entry.dataLen
          if bytes.length = entry.dataLen then some bytes else none

/-- The state in which `module2_init` begins, with its file open. -/
def opened (file : Bytes) : Module2State where
  index _ := none
  totalStored := 0
  nextChunkId := 1
  duplicateCount := 0
  fp := true
  hashTable := none
  storeFile := file

/-- A round of the loop of `module2_init`, at an offset of the file with some bytes left. -/
def loadRecord (p : ℕ × Module2State) (rest : Bytes) : Option ((ℕ × Module2State) × ℕ) :=
  let (off, s) := p
  let cid := rest.field32 0
  let dlen := rest.field32 4
  -- one of the three reads of the header comes back short
  if rest.length < hdrSize then none
  else if dlen = 0 ∨ maxDataLen < dlen then none
  else if maxChunks ≤ s.totalStored then none
  else
    let entry : ChunkIndex :=
      ⟨cid, ⟨rest.readAt 8 hashSize, Bytes.length_readAt⟩, off, dlen, 1⟩
    some ((off + (hdrSize + dlen), { s.pushIndex entry with
      nextChunkId := if s.nextChunkId ≤ cid then (cid + 1) % 2 ^ 32 else s.nextChunkId }),
      hdrSize + dlen)

/-- The index that `module2_init` builds from a file. -/
def loadIndex (file : Bytes) : Module2State :=
  (RecordLog.scan loadRecord (file.length + 1) (0, opened file) file).2

/-- The table of the first slots of an index. -/
def tableOf (index : ℕ → Option ChunkIndex) : ℕ → HashTable
  | 0 => fun _ => none
  | n + 1 =>
    match index n with
    | none => tableOf index n
    | some entry => (tableOf index n).addKeyData entry.hash n

/-- `build_hash` of `module2_init`. -/
def buildHash : Module2State := { s with hashTable := some (tableOf s.index s.totalStored) }

/-- `module2_init`; there may be no file. -/
def module2Init : Option Bytes → Module2State
  | none => (opened []).buildHash
  | some file => (loadIndex file).buildHash

/-- `module2_close`. -/
def module2Close : Module2State := { s with hashTable := none, fp := false }

end Module2State

/-- What happens to the store. Lookups and reads do not change it. -/
inductive StoreEvent where
  | store (fault : StoreFault) (hash : ChunkHash) (data : ChunkData)
  | incrementRef (cid : ℕ)
  | restart

namespace Module2State

/-- One event. -/
def step (s : Module2State) : StoreEvent → Module2State
  | .store fault hash data => (s.storeChunk fault hash data).2
  | .incrementRef cid => s.incrementRef cid
  | .restart => module2Init (some s.module2Close.storeFile)

end Module2State

/-! ### Records -/

section Records

variable (cid dlen : ℕ) (hash : ChunkHash)

@[simp] theorem length_header : (header cid dlen hash).length = hdrSize := by
  simp only [header, List.length_append, length_le32, hash.property, hdrSize, hashSize]

@[simp] theorem length_record (data : Bytes) :
    (record cid hash data).length = hdrSize + data.length := by
  rw [record, List.length_append, length_header]

theorem record_ne_nil (data : Bytes) : record cid hash data ≠ [] := by
  apply List.ne_nil_of_length_pos
  rw [length_record, hdrSize]
  omega

/-- The fields of a header, whatever is behind it. -/
theorem header_fields (tail : Bytes) :
    (header cid dlen hash ++ tail).field32 0 = cid % 2 ^ 32 ∧
      (header cid dlen hash ++ tail).field32 4 = dlen % 2 ^ 32 ∧
      (header cid dlen hash ++ tail).readAt 8 hashSize = hash.val := by
  rw [header, List.append_assoc]
  refine ⟨?_, ?_, Bytes.readAt_middle (by simp) hash.property⟩
  · rw [List.append_assoc, Bytes.field32_append_left (by simp), field32_le32]
  · rw [List.append_assoc, Bytes.field32_append_right (by simp),
      Bytes.field32_append_left (by simp)]
    exact field32_le32 dlen

end Records

namespace Module2State

variable {s : Module2State} {cid : ℕ} {hash : ChunkHash}

/-! ### Lookups -/

/-- A slot that the table leads to is found when its entry has the hash. -/
theorem findByHash_eq {table : HashTable} {slot : ℕ} {entry : ChunkIndex}
    (htable : s.hashTable = some table) (hslot : table hash = some slot)
    (hmax : slot < maxChunks) (hentry : s.index slot = some entry) (hhash : entry.hash = hash) :
    s.findByHash hash = entry.chunkId := by
  have hmax' : ¬ maxChunks ≤ slot := by omega
  simp only [findByHash, htable, hslot, if_neg hmax', hentry, if_pos hhash]

/-- What is found is the id in an entry of the index with that hash. -/
theorem exists_of_findByHash (h : s.findByHash hash ≠ 0) :
    ∃ slot entry, s.index slot = some entry ∧ entry.hash = hash ∧
      entry.chunkId = s.findByHash hash := by
  cases htable : s.hashTable with
  | none => simp [findByHash, htable] at h
  | some table =>
    cases hslot : table hash with
    | none => simp [findByHash, htable, hslot] at h
    | some slot =>
      cases hentry : s.index slot with
      | none => simp [findByHash, htable, hslot, hentry] at h
      | some entry =>
        have hmax : slot < maxChunks := by
          by_contra hge
          simp [findByHash, htable, hslot, not_lt.mp hge] at h
        have hhash : entry.hash = hash := by
          by_contra hne
          simp [findByHash, htable, hslot, hentry, hne] at h
        exact ⟨slot, entry, hentry, hhash, (findByHash_eq htable hslot hmax hentry hhash).symm⟩

/-- A hash that the table does not have is not found. -/
theorem findByHash_of_none {table : HashTable} (htable : s.hashTable = some table)
    (hnone : table hash = none) : s.findByHash hash = 0 := by
  simp only [findByHash, htable, hnone]

/-- The slot of a chunk id that its entry confirms. -/
theorem cidToSlot_succ {slot : ℕ} {entry : ChunkIndex} (hmax : slot < maxChunks)
    (hnext : slot + 1 ≤ s.nextChunkId) (hentry : s.index slot = some entry)
    (hcid : entry.chunkId = slot + 1) : s.cidToSlot (slot + 1) = some slot := by
  have hvalid : ¬ (slot + 1 = 0 ∨ s.nextChunkId < slot + 1) := by omega
  have hmax' : ¬ maxChunks ≤ slot + 1 - 1 := by omega
  rw [cidToSlot, if_neg hvalid, if_neg hmax', Nat.add_sub_cancel]
  simp only [hentry, if_pos hcid]

/-- A chunk id leads to a slot below `maxChunks` whose entry has that id. -/
theorem exists_of_cidToSlot {slot : ℕ} (h : s.cidToSlot cid = some slot) :
    slot < maxChunks ∧ ∃ entry, s.index slot = some entry ∧ entry.chunkId = cid := by
  unfold cidToSlot at h
  split at h
  · contradiction
  · split at h
    · contradiction
    · rename_i hmax
      split at h
      · contradiction
      · rename_i entry hentry
        split at h
        · rename_i hcid
          obtain rfl := Option.some.inj h
          exact ⟨by omega, entry, hentry, hcid⟩
        · contradiction

/-- Counting one more reference touches one count only. -/
theorem incrementRef_of_slot {slot : ℕ} {entry : ChunkIndex} (hslot : s.cidToSlot cid = some slot)
    (hentry : s.index slot = some entry) :
    s.incrementRef cid = { s with
      index := Function.update s.index slot
        (some { entry with refCount := (entry.refCount + 1) % 2 ^ 32 })
      duplicateCount := (s.duplicateCount + 1) % 2 ^ 32 } := by
  simp only [incrementRef, hslot, hentry, Option.map_some]

/-- The slot of a chunk id is read with a buffer that is long enough: the data is there, or
the file ends before it does. -/
theorem readChunk_succ {slot bufSize : ℕ} {entry : ChunkIndex} (hfp : s.fp = true)
    (hslot : s.cidToSlot (slot + 1) = some slot) (hentry : s.index slot = some entry)
    (hbuf : entry.dataLen ≤ bufSize) :
    s.readChunk (slot + 1) bufSize =
      if ((s.storeFile.drop (entry.fileOffset + hdrSize)).take entry.dataLen).length =
          entry.dataLen
      then some ((s.storeFile.drop (entry.fileOffset + hdrSize)).take entry.dataLen)
      else none := by
  have hopen : ¬ (slot + 1 = 0 ∨ s.fp = false) := by simp [hfp]
  have hbuf' : ¬ bufSize < entry.dataLen := by omega
  simp only [readChunk, if_neg hopen, hslot, hentry, if_neg hbuf']

/-! ### Stores -/

/-- A chunk with a new hash gets as far as the file when there is room. -/
theorem storeChunk_of_new {table : HashTable} {fault : StoreFault} {data : ChunkData}
    (hdata : data.val ≠ []) (hfp : s.fp = true) (htable : s.hashTable = some table)
    (hfind : s.findByHash hash = 0) (hroom : s.totalStored < maxChunks) :
    s.storeChunk fault hash data = s.appendChunk table fault hash data.val := by
  have hopen : ¬ (data.val = [] ∨ s.fp = false) := by simp [hdata, hfp]
  have hroom' : ¬ maxChunks ≤ s.totalStored := by omega
  simp only [storeChunk, if_neg hopen, htable, hfind, ne_eq, not_true_eq_false, if_false,
    if_neg hroom']

/-- A chunk whose hash is found is a duplicate. -/
theorem storeChunk_of_found {table : HashTable} {fault : StoreFault} {data : ChunkData}
    (hdata : data.val ≠ []) (hfp : s.fp = true) (htable : s.hashTable = some table)
    (hfind : s.findByHash hash ≠ 0) :
    s.storeChunk fault hash data = (s.findByHash hash, s.incrementRef (s.findByHash hash)) := by
  have hopen : ¬ (data.val = [] ∨ s.fp = false) := by simp [hdata, hfp]
  simp only [storeChunk, if_neg hopen, htable, if_pos hfind]

/-- A new chunk is refused when the index is full. -/
theorem storeChunk_of_full {fault : StoreFault} {data : ChunkData}
    (hfind : s.findByHash hash = 0) (hfull : maxChunks ≤ s.totalStored) :
    s.storeChunk fault hash data = (0, s) := by
  unfold storeChunk
  split
  · rfl
  · cases s.hashTable with
    | none => rfl
    | some table => simp only [hfind, ne_eq, not_true_eq_false, if_false]

/-- There is nothing to store in empty data. -/
theorem storeChunk_of_empty {fault : StoreFault} {data : ChunkData} (hdata : data.val = []) :
    s.storeChunk fault hash data = (0, s) := by
  simp only [storeChunk, hdata, true_or, if_true]

/-! ### Rounds of the loop of `module2_init` -/

/-- A header that is all there is taken, whatever follows it in the file. -/
theorem loadRecord_header {off dlen : ℕ} (tail : Bytes) (hcid : cid < 2 ^ 32)
    (hpos : 0 < dlen) (hmax : dlen ≤ maxDataLen) (hroom : s.totalStored < maxChunks) :
    loadRecord (off, s) (header cid dlen hash ++ tail) =
      some ((off + (hdrSize + dlen), { s.pushIndex ⟨cid, hash, off, dlen, 1⟩ with
        nextChunkId := if s.nextChunkId ≤ cid then (cid + 1) % 2 ^ 32 else s.nextChunkId }),
        hdrSize + dlen) := by
  obtain ⟨hfieldCid, hfieldLen, hfieldHash⟩ := header_fields cid dlen hash tail
  have hdlen : dlen % 2 ^ 32 = dlen := Nat.mod_eq_of_lt (by unfold maxDataLen at hmax; omega)
  have hwhole : ¬ (header cid dlen hash ++ tail).length < hdrSize := by
    rw [List.length_append, length_header]
    omega
  have hvalid : ¬ (dlen = 0 ∨ maxDataLen < dlen) := by omega
  have hroom' : ¬ maxChunks ≤ s.totalStored := by omega
  simp only [loadRecord, hfieldCid, hfieldLen, hfieldHash, Nat.mod_eq_of_lt hcid, hdlen,
    if_neg hwhole, if_neg hvalid, if_neg hroom']

/-- A round that goes on needs a header, goes over more than it, and uses one more slot,
for the hash in the header. -/
theorem loadRecord_some {p p' : ℕ × Module2State} {rest : Bytes} {n : ℕ}
    (h : loadRecord p rest = some (p', n)) :
    hdrSize ≤ rest.length ∧ hdrSize < n ∧ ∃ entry : ChunkIndex,
      entry.hash.val = rest.readAt 8 hashSize ∧
        p'.2.index = Function.update p.2.index p.2.totalStored (some entry) := by
  unfold loadRecord at h
  simp only at h
  split at h
  · contradiction
  · split at h
    · contradiction
    · split at h
      · contradiction
      · obtain ⟨rfl, rfl⟩ := Prod.mk.inj (Option.some.inj h)
        exact ⟨by omega, by omega, _, rfl, rfl⟩

/-- The loop ends when less than a header is left. -/
theorem loadRecord_of_short {p : ℕ × Module2State} {rest : Bytes} (h : rest.length < hdrSize) :
    loadRecord p rest = none := by
  simp only [loadRecord, if_pos h]

/-- The loop may be given any bound above the length of the file. -/
theorem scan_loadRecord {f g : ℕ} (p : ℕ × Module2State) {rest : Bytes} (hf : rest.length < f)
    (hg : rest.length < g) :
    RecordLog.scan loadRecord f p rest = RecordLog.scan loadRecord g p rest := by
  apply RecordLog.scan_fuel _ p hf hg
  intro p rest p' n h
  obtain ⟨hlen, hn, -⟩ := loadRecord_some h
  refine ⟨List.ne_nil_of_length_pos ?_, by omega⟩
  rw [hdrSize] at hlen
  omega

end Module2State

end SecureWan.ByteCache
