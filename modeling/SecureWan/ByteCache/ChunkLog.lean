import SecureWan.ByteCache.ChunkStore
import Mathlib.Algebra.BigOperators.Group.Finset.Piecewise
import Mathlib.Algebra.Order.BigOperators.Group.Finset
import Mathlib.Data.Nat.ModEq

/-!
# The chunk store as a log of chunks

What the store is for: a list of chunks, one for each hash, to which the first data that
comes with a hash is added for as long as there is room. The file, the index and the table
of `module2.c` are three representations of it. A store without faults keeps them in step,
and a restart builds the last two from the first.
-/

namespace SecureWan.ByteCache

/-- A chunk that the store takes. -/
structure StoredChunk where
  hash : ChunkHash
  data : Bytes
  length_pos : 0 < data.length
  length_le : data.length ≤ maxDataLen

/-- The chunks stored so far, in order. -/
structure ChunkLog where
  chunks : List StoredChunk
  nodup : (chunks.map StoredChunk.hash).Nodup
  length_le : chunks.length ≤ maxChunks

namespace ChunkLog

/-- No chunks. -/
def empty : ChunkLog := ⟨[], List.nodup_nil, Nat.zero_le _⟩

variable (log : ChunkLog)

/-- The hashes of the chunks, in order. -/
def hashes : List ChunkHash := log.chunks.map StoredChunk.hash

/-- A chunk with a new hash is added. -/
def push (c : StoredChunk) (hnew : c.hash ∉ log.hashes)
    (hroom : log.chunks.length < maxChunks) : ChunkLog where
  chunks := log.chunks ++ [c]
  nodup := by
    rw [List.map_append]
    exact log.nodup.append (List.nodup_singleton _) (by simpa [hashes] using hnew)
  length_le := by
    rw [List.length_append]
    exact hroom

/-- Data comes with a hash. -/
def put (hash : ChunkHash) (data : ChunkData) : ChunkLog :=
  if hdata : data.val = [] then log
  else if hnew : hash ∉ log.hashes then
    if hroom : log.chunks.length < maxChunks then
      log.push ⟨hash, data.val, List.length_pos_iff.mpr hdata, data.property⟩ hnew hroom
    else log
  else log

/-- What an event without faults does to the log. -/
def step (log : ChunkLog) : StoreEvent → ChunkLog
  | .store _ hash data => log.put hash data
  | .incrementRef _ => log
  | .restart => log

end ChunkLog

/-- The record of a chunk, by its position. -/
def recordAt (i : ℕ) (c : StoredChunk) : Bytes := record (i + 1) c.hash c.data

/-- The file that holds some chunks. -/
def storeFileOf (cs : List StoredChunk) : Bytes := RecordLog.encode recordAt cs

theorem storeFileOf_concat (cs : List StoredChunk) (c : StoredChunk) :
    storeFileOf (cs ++ [c]) = storeFileOf cs ++ recordAt cs.length c :=
  RecordLog.encode_concat recordAt cs c

theorem length_recordAt (i : ℕ) (c : StoredChunk) :
    (recordAt i c).length = hdrSize + c.data.length := length_record _ _ _

/-- The entry of the index for a chunk of a list. -/
def entryOf (cs : List StoredChunk) (i : ℕ) (c : StoredChunk) (refs : ℕ) : ChunkIndex :=
  ⟨i + 1, c.hash, (storeFileOf (cs.take i)).length, c.data.length, refs⟩

/-! ### The index -/

/-- The index describes the chunks of a list. -/
structure Indexed (cs : List StoredChunk) (s : Module2State) : Prop where
  total : s.totalStored = cs.length
  nextId : s.nextChunkId = cs.length + 1
  entry : ∀ i c, cs[i]? = some c → ∃ refs, s.index i = some (entryOf cs i c refs)
  unused : ∀ i, cs.length ≤ i → s.index i = none

/-- A used slot belongs to a chunk. -/
theorem Indexed.exists_chunk {cs : List StoredChunk} {s : Module2State} (h : Indexed cs s)
    {i : ℕ} {e : ChunkIndex} (he : s.index i = some e) :
    ∃ c, cs[i]? = some c ∧ ∃ refs, e = entryOf cs i c refs := by
  have hi : i < cs.length := by
    by_contra hge
    rw [h.unused i (by omega)] at he
    contradiction
  obtain ⟨refs, hrefs⟩ := h.entry i cs[i] (List.getElem?_eq_getElem hi)
  rw [he] at hrefs
  exact ⟨cs[i], List.getElem?_eq_getElem hi, refs, Option.some.inj hrefs⟩

/-- The next slot is used for one more chunk. -/
theorem Indexed.push {cs : List StoredChunk} {s s' : Module2State} {c : StoredChunk}
    (h : Indexed cs s) (refs : ℕ) (htotal : s'.totalStored = s.totalStored + 1)
    (hnext : s'.nextChunkId = s.nextChunkId + 1)
    (hindex : s'.index = Function.update s.index s.totalStored
      (some ⟨s.nextChunkId, c.hash, (storeFileOf cs).length, c.data.length, refs⟩)) :
    Indexed (cs ++ [c]) s' where
  total := by rw [htotal, h.total, List.length_append, List.length_singleton]
  nextId := by rw [hnext, h.nextId, List.length_append, List.length_singleton]
  entry i d hd := by
    rw [hindex, h.total, h.nextId]
    rcases lt_trichotomy i cs.length with hlt | rfl | hgt
    · rw [List.getElem?_append_left hlt] at hd
      obtain ⟨refs', hrefs'⟩ := h.entry i d hd
      refine ⟨refs', ?_⟩
      rw [Function.update_of_ne (by omega), hrefs', entryOf, entryOf,
        List.take_append_of_le_length (by omega)]
    · rw [List.getElem?_concat_length] at hd
      obtain rfl := Option.some.inj hd
      refine ⟨refs, ?_⟩
      rw [Function.update_self, entryOf, List.take_left]
    · rw [List.getElem?_eq_none (by
        rw [List.length_append, List.length_singleton]
        omega)] at hd
      contradiction
  unused i hi := by
    rw [List.length_append, List.length_singleton] at hi
    rw [hindex, h.total, Function.update_of_ne (by omega)]
    exact h.unused i (by omega)

/-- The index describes the same chunks when only a count of references changes. -/
theorem Indexed.setRefs {cs : List StoredChunk} {s s' : Module2State} {slot : ℕ}
    {e : ChunkIndex} {refs : ℕ} (h : Indexed cs s) (hslot : s.index slot = some e)
    (htotal : s'.totalStored = s.totalStored) (hnext : s'.nextChunkId = s.nextChunkId)
    (hindex : s'.index = Function.update s.index slot (some { e with refCount := refs })) :
    Indexed cs s' where
  total := htotal.trans h.total
  nextId := hnext.trans h.nextId
  entry i c hc := by
    rw [hindex]
    by_cases hi : i = slot
    · subst hi
      obtain ⟨refs', hrefs'⟩ := h.entry i c hc
      obtain rfl := Option.some.inj (hslot.symm.trans hrefs')
      exact ⟨refs, by rw [Function.update_self, entryOf, entryOf]⟩
    · rw [Function.update_of_ne hi]
      exact h.entry i c hc
  unused i hi := by
    have hne : i ≠ slot := by
      rintro rfl
      rw [h.unused i hi] at hslot
      contradiction
    rw [hindex, Function.update_of_ne hne]
    exact h.unused i hi

/-! ### The table -/

/-- The table leads from each hash of a list to its position, and from no other hash. -/
def Mirrors (hs : List ChunkHash) (table : HashTable) : Prop :=
  ∀ hash i, table hash = some i ↔ hs[i]? = some hash

theorem Mirrors.none_of_notMem {hs : List ChunkHash} {table : HashTable}
    (h : Mirrors hs table) {hash : ChunkHash} (hnew : hash ∉ hs) : table hash = none := by
  cases hslot : table hash with
  | none => rfl
  | some i => exact absurd (List.mem_of_getElem? ((h hash i).mp hslot)) hnew

theorem Mirrors.addKeyData {hs : List ChunkHash} {table : HashTable} (h : Mirrors hs table)
    {hash : ChunkHash} (hnew : hash ∉ hs) :
    Mirrors (hs ++ [hash]) (table.addKeyData hash hs.length) := by
  intro k i
  rw [HashTable.addKeyData, List.getElem?_append]
  by_cases hk : k = hash
  · subst hk
    rw [Function.update_self]
    split
    · rename_i hlt
      have hne : hs[i]? ≠ some k := fun hmem => hnew (List.mem_of_getElem? hmem)
      exact iff_of_false (fun heq => by have := Option.some.inj heq; omega) hne
    · rename_i hge
      rw [List.getElem?_singleton]
      grind
  · rw [Function.update_of_ne hk, h k i]
    split
    · exact Iff.rfl
    · rename_i hge
      rw [List.getElem?_eq_none (by omega)]
      grind

/-- The table built from an index is one of the hashes of the chunks it describes. -/
theorem Indexed.mirrors {cs : List StoredChunk} {s : Module2State} (h : Indexed cs s)
    (hnodup : (cs.map StoredChunk.hash).Nodup) :
    Mirrors (cs.map StoredChunk.hash) (Module2State.tableOf s.index s.totalStored) := by
  rw [h.total]
  have hprefix : ∀ n ≤ cs.length,
      Mirrors ((cs.map StoredChunk.hash).take n) (Module2State.tableOf s.index n) := by
    intro n hn
    induction n with
    | zero => intro hash i; simp [Module2State.tableOf]
    | succ n ih =>
      have hlt : n < (cs.map StoredChunk.hash).length := by
        rw [List.length_map]
        omega
      obtain ⟨refs, hrefs⟩ := h.entry n cs[n] (List.getElem?_eq_getElem (by omega))
      have hnew : (cs.map StoredChunk.hash)[n] ∉ (cs.map StoredChunk.hash).take n := by
        have hsub := hnodup.sublist (List.take_sublist (n + 1) _)
        rw [List.take_succ_eq_append_getElem hlt, List.nodup_append] at hsub
        exact fun hmem => hsub.2.2 _ hmem _ (List.mem_singleton_self _) rfl
      have hadd := (ih (by omega)).addKeyData hnew
      rw [List.length_take_of_le (by omega), ← List.take_succ_eq_append_getElem hlt,
        List.getElem_map] at hadd
      rw [Module2State.tableOf, hrefs]
      exact hadd
  have hall := hprefix cs.length le_rfl
  rwa [List.take_of_length_le (by rw [List.length_map])] at hall

/-! ### Counts of references -/

namespace Module2State

variable {s s' : Module2State}

/-- The count of references of a slot; zero when it is not used. -/
def refsAt (s : Module2State) (slot : ℕ) : ℕ := (s.index slot).elim 0 ChunkIndex.refCount

/-- The sum of the counts of references. -/
def refSum (s : Module2State) : ℕ := ∑ slot ∈ Finset.range maxChunks, s.refsAt slot

/-- Writing one slot of the index changes the sum by the change of its count. -/
theorem refSum_update {slot : ℕ} {e : Option ChunkIndex} (hslot : slot < maxChunks)
    (hindex : s'.index = Function.update s.index slot e) :
    s'.refSum + s.refsAt slot = s.refSum + e.elim 0 ChunkIndex.refCount := by
  have hrefs : s'.refsAt = Function.update s.refsAt slot (e.elim 0 ChunkIndex.refCount) := by
    funext i
    unfold refsAt
    rw [hindex]
    by_cases hi : i = slot
    · subst hi
      rw [Function.update_self, Function.update_self]
    · rw [Function.update_of_ne hi, Function.update_of_ne hi]
  have hmem := Finset.mem_range.mpr hslot
  have hsplit := Finset.add_sum_erase (Finset.range maxChunks) s.refsAt hmem
  unfold refSum
  rw [hrefs, Finset.sum_update_of_mem hmem, Finset.sdiff_singleton_eq_erase]
  omega

/-- A new entry has one reference. -/
theorem refSum_push {entry : ChunkIndex} (hroom : s.totalStored < maxChunks)
    (hunused : s.index s.totalStored = none) (hrefs : entry.refCount = 1)
    (hindex : s'.index = Function.update s.index s.totalStored (some entry)) :
    s'.refSum = s.refSum + 1 := by
  have hold : s.refsAt s.totalStored = 0 := by
    rw [refsAt, hunused]
    rfl
  have hsum := refSum_update hroom hindex
  rw [hold, Option.elim_some, hrefs, Nat.add_zero] at hsum
  exact hsum

/-- No count is above the sum. -/
theorem refsAt_le_refSum {slot : ℕ} (hslot : slot < maxChunks) : s.refsAt slot ≤ s.refSum :=
  Finset.single_le_sum (fun _ _ => Nat.zero_le _) (Finset.mem_range.mpr hslot)

end Module2State

/-! ### Loading -/

open Module2State

/-- The loop of `module2_init` has gone over the records of some chunks. -/
structure Loaded (file : Bytes) (cs : List StoredChunk) (p : ℕ × Module2State) : Prop where
  offset : p.1 = (storeFileOf cs).length
  indexed : Indexed cs p.2
  refs : p.2.refSum = p.2.totalStored
  noDup : p.2.duplicateCount = 0
  fp : p.2.fp = true
  file : p.2.storeFile = file

theorem loaded_opened (file : Bytes) : Loaded file [] (0, opened file) where
  offset := rfl
  indexed :=
    { total := rfl
      nextId := rfl
      entry := fun i c hc => by simp at hc
      unused := fun _ _ => rfl }
  refs := Finset.sum_const_zero
  noDup := rfl
  fp := rfl
  file := rfl

/-- A round takes the header of the next record, whatever is behind it. -/
theorem Loaded.step {file : Bytes} {cs : List StoredChunk} {p : ℕ × Module2State}
    (h : Loaded file cs p) (c : StoredChunk) (hroom : cs.length < maxChunks) :
    ∃ p', Loaded file (cs ++ [c]) p' ∧ ∀ tail,
      loadRecord p (header (cs.length + 1) c.data.length c.hash ++ tail) =
        some (p', hdrSize + c.data.length) := by
  obtain ⟨off, s⟩ := p
  have hoff : off = (storeFileOf cs).length := h.offset
  have htotal : s.totalStored = cs.length := h.indexed.total
  have hnext : s.nextChunkId = cs.length + 1 := h.indexed.nextId
  have hid : cs.length + 1 + 1 < 2 ^ 32 := by
    rw [maxChunks] at hroom
    omega
  refine ⟨_, ?_, fun tail => loadRecord_header tail (by omega) c.length_pos c.length_le
    (by omega)⟩
  exact
    { offset := by
        simp only
        rw [storeFileOf_concat, List.length_append, length_recordAt, hoff]
      indexed := by
        apply h.indexed.push 1 rfl
        · simp only
          rw [if_pos (by omega), Nat.mod_eq_of_lt hid, hnext]
        · simp only [pushIndex, hoff, hnext]
      refs := by
        have hsum : s.refSum = s.totalStored := h.refs
        have hpush := refSum_push (s := s) (by omega) (h.indexed.unused _ (by omega))
          (rfl : (⟨cs.length + 1, c.hash, off, c.data.length, 1⟩ : ChunkIndex).refCount = 1)
          (rfl : (s.pushIndex ⟨cs.length + 1, c.hash, off, c.data.length, 1⟩).index = _)
        exact hpush.trans (congrArg (· + 1) hsum)
      noDup := h.noDup
      fp := h.fp
      file := h.file }

/-- The loop of `module2_init` goes over whole records to what is behind them. -/
theorem exists_loaded {cs : List StoredChunk} (hroom : cs.length ≤ maxChunks) (tail : Bytes) :
    ∃ p, Loaded (storeFileOf cs ++ tail) cs p ∧
      loadIndex (storeFileOf cs ++ tail) =
        (RecordLog.scan loadRecord (tail.length + 1) p tail).2 := by
  have hstep : ∀ fst c p, fst ++ [c] <+: cs → Loaded (storeFileOf cs ++ tail) fst p →
      ∃ p', Loaded (storeFileOf cs ++ tail) (fst ++ [c]) p' ∧ ∀ more,
        loadRecord p (recordAt fst.length c ++ more) =
          some (p', (recordAt fst.length c).length) := by
    intro fst c p hpre hp
    have hlen := hpre.length_le
    rw [List.length_append, List.length_singleton] at hlen
    obtain ⟨p', hp', hload⟩ := hp.step c (by omega)
    refine ⟨p', hp', fun more => ?_⟩
    rw [length_recordAt, recordAt, record, List.append_assoc, hload]
  obtain ⟨p, hp, hscan⟩ := RecordLog.scan_encode hstep (loaded_opened _)
  refine ⟨p, hp, ?_⟩
  have hlen : (storeFileOf cs ++ tail).length <
      cs.length + ((storeFileOf cs ++ tail).length + 1) := by omega
  have htail : tail.length < (storeFileOf cs ++ tail).length + 1 := by
    rw [List.length_append]
    omega
  have hall := hscan ((storeFileOf cs ++ tail).length + 1) tail
  rw [loadIndex, scan_loadRecord _ (Nat.lt_succ_self _) hlen]
  exact congrArg Prod.snd (hall.trans (scan_loadRecord p htail (Nat.lt_succ_self _)))

/-! ### The three representations -/

/-- The file, the index and the table stand for the log. -/
structure InStep (log : ChunkLog) (s : Module2State) : Prop where
  indexed : Indexed log.chunks s
  file : s.storeFile = storeFileOf log.chunks
  fp : s.fp = true
  table : ∃ table, s.hashTable = some table ∧ Mirrors log.hashes table

namespace InStep

variable {log : ChunkLog} {s : Module2State} {hash : ChunkHash} {i : ℕ} {c : StoredChunk}

/-- The slots of chunks are below `maxChunks`. -/
theorem lt_maxChunks (hc : log.chunks[i]? = some c) : i < maxChunks :=
  lt_of_lt_of_le (List.getElem?_eq_some_iff.mp hc).1 log.length_le

/-- The hash of a chunk is found, with the id of the chunk. -/
theorem findByHash_eq (h : InStep log s) (hc : log.chunks[i]? = some c) :
    s.findByHash c.hash = i + 1 := by
  obtain ⟨table, htable, hmirrors⟩ := h.table
  obtain ⟨refs, hentry⟩ := h.indexed.entry i c hc
  have hhash : log.hashes[i]? = some c.hash := by
    rw [ChunkLog.hashes, List.getElem?_map, hc, Option.map_some]
  exact Module2State.findByHash_eq htable ((hmirrors _ _).mpr hhash) (lt_maxChunks hc) hentry rfl

/-- No other hash is found. -/
theorem findByHash_of_notMem (h : InStep log s) (hnew : hash ∉ log.hashes) :
    s.findByHash hash = 0 := by
  obtain ⟨table, htable, hmirrors⟩ := h.table
  exact findByHash_of_none htable (hmirrors.none_of_notMem hnew)

/-- The id of a chunk leads to its slot. -/
theorem cidToSlot_eq (h : InStep log s) (hc : log.chunks[i]? = some c) :
    s.cidToSlot (i + 1) = some i := by
  obtain ⟨refs, hentry⟩ := h.indexed.entry i c hc
  have hlt := (List.getElem?_eq_some_iff.mp hc).1
  exact cidToSlot_succ (lt_maxChunks hc) (by rw [h.indexed.nextId]; omega) hentry rfl

/-- The record of a chunk is where the index says. -/
theorem record_in_file (h : InStep log s) (hc : log.chunks[i]? = some c) :
    ∃ more, s.storeFile =
      storeFileOf (log.chunks.take i) ++ recordAt i c ++ more := by
  obtain ⟨hlt, hget⟩ := List.getElem?_eq_some_iff.mp hc
  have hsplit : log.chunks = log.chunks.take i ++ c :: log.chunks.drop (i + 1) := by
    rw [← hget, ← List.drop_eq_getElem_cons hlt, List.take_append_drop]
  obtain ⟨more, hmore⟩ := RecordLog.encode_middle recordAt (log.chunks.take i) c
    (log.chunks.drop (i + 1))
  refine ⟨more, ?_⟩
  rw [← hsplit, List.length_take_of_le (by omega)] at hmore
  rw [h.file]
  exact hmore

/-- Reading the id of a chunk gives its data. -/
theorem readChunk_eq (h : InStep log s) (hc : log.chunks[i]? = some c) {bufSize : ℕ}
    (hbuf : c.data.length ≤ bufSize) : s.readChunk (i + 1) bufSize = some c.data := by
  obtain ⟨refs, hentry⟩ := h.indexed.entry i c hc
  obtain ⟨more, hmore⟩ := h.record_in_file hc
  have hread : (s.storeFile.drop ((storeFileOf (log.chunks.take i)).length + hdrSize)).take
      c.data.length = c.data := by
    rw [hmore, List.append_assoc, List.drop_length_add_append, recordAt, record,
      List.append_assoc, ← length_header (i + 1) c.data.length c.hash, List.drop_left,
      List.take_left]
  rw [readChunk_succ h.fp (h.cidToSlot_eq hc) hentry hbuf]
  simp only [entryOf, hread, if_true]

end InStep

/-- `module2_init` goes over the whole file that holds some chunks. -/
theorem module2Init_loaded {cs : List StoredChunk} (hroom : cs.length ≤ maxChunks) :
    ∃ p, Loaded (storeFileOf cs) cs p ∧
      module2Init (some (storeFileOf cs)) = p.2.buildHash := by
  obtain ⟨p, hp, hload⟩ := exists_loaded hroom []
  rw [List.append_nil, RecordLog.scan_of_none (loadRecord_of_short (by simp [hdrSize]))] at hload
  rw [List.append_nil] at hp
  exact ⟨p, hp, by rw [module2Init, hload]⟩

/-- Once the loop is over, the table is built; behind the records there may be more. -/
theorem Loaded.inStep {log : ChunkLog} {file : Bytes} {p : ℕ × Module2State}
    (hp : Loaded file log.chunks p) :
    InStep log { p.2.buildHash with storeFile := storeFileOf log.chunks } where
  indexed :=
    { total := hp.indexed.total
      nextId := hp.indexed.nextId
      entry := hp.indexed.entry
      unused := hp.indexed.unused }
  file := rfl
  fp := hp.fp
  table := ⟨_, rfl, hp.indexed.mirrors log.nodup⟩

/-- What `module2_init` makes of a file of whole records is in step with it. -/
theorem inStep_module2Init (log : ChunkLog) :
    InStep log (module2Init (some (storeFileOf log.chunks))) := by
  obtain ⟨p, hp, hinit⟩ := module2Init_loaded log.length_le
  have hfile : p.2.storeFile = storeFileOf log.chunks := hp.file
  have hin := hp.inStep
  rw [← hfile] at hin
  rw [hinit]
  exact hin

/-- A store with no file yet has no chunks. -/
theorem inStep_empty : InStep ChunkLog.empty (module2Init none) :=
  Loaded.inStep (show Loaded [] ChunkLog.empty.chunks _ from loaded_opened [])

namespace InStep

variable {log : ChunkLog} {s : Module2State} {hash : ChunkHash} {data : ChunkData}

/-- Counting references does not change what is stored. -/
theorem incrementRef (h : InStep log s) (cid : ℕ) : InStep log (s.incrementRef cid) := by
  cases hslot : s.cidToSlot cid with
  | none => simpa only [Module2State.incrementRef, hslot] using h
  | some slot =>
    obtain ⟨-, e, he, -⟩ := exists_of_cidToSlot hslot
    rw [incrementRef_of_slot hslot he]
    exact
      { indexed := h.indexed.setRefs he rfl rfl rfl
        file := h.file
        fp := h.fp
        table := h.table }

/-- A new chunk goes to the end of the file, the next slot and the table. -/
theorem push (h : InStep log s) (c : StoredChunk) (hnew : c.hash ∉ log.hashes)
    (hroom : log.chunks.length < maxChunks) {table : HashTable}
    (htable : s.hashTable = some table) :
    InStep (log.push c hnew hroom) (s.appendChunk table .none c.hash c.data).2 := by
  obtain ⟨table', htable', hmirrors⟩ := h.table
  obtain rfl := Option.some.inj (htable.symm.trans htable')
  have hid : s.nextChunkId + 1 < 2 ^ 32 := by
    rw [h.indexed.nextId]
    rw [maxChunks] at hroom
    omega
  have hlen : log.hashes.length = s.totalStored := by
    rw [h.indexed.total, ChunkLog.hashes, List.length_map]
  exact
    { indexed := by
        apply h.indexed.push 1 rfl
        · exact Nat.mod_eq_of_lt hid
        · simp only [appendChunk, pushIndex, h.file]
      file := by
        rw [ChunkLog.push, storeFileOf_concat, recordAt, ← h.indexed.nextId, ← h.file]
        rfl
      fp := h.fp
      table := by
        refine ⟨_, rfl, ?_⟩
        have hadd := hmirrors.addKeyData hnew
        rw [hlen] at hadd
        rw [ChunkLog.hashes, ChunkLog.push, List.map_append]
        exact hadd }

/-- **Stores without faults.** A call of `module2_store_chunk` finds nothing to do, or a
chunk with that hash, or adds a chunk. -/
theorem storeChunk_cases (h : InStep log s) (hash : ChunkHash) (data : ChunkData) :
    (log.put hash data = log ∧ s.storeChunk .none hash data = (0, s) ∧
        (data.val = [] ∨ hash ∉ log.hashes)) ∨
      (∃ i c, log.chunks[i]? = some c ∧ c.hash = hash ∧ log.put hash data = log ∧
        s.storeChunk .none hash data = (i + 1, s.incrementRef (i + 1))) ∨
      ∃ (c : StoredChunk) (hnew : c.hash ∉ log.hashes) (hroom : log.chunks.length < maxChunks)
        (table : HashTable), s.hashTable = some table ∧ c.hash = hash ∧ c.data = data.val ∧
          log.put hash data = log.push c hnew hroom ∧
          s.storeChunk .none hash data = s.appendChunk table .none c.hash c.data := by
  obtain ⟨table, htable, -⟩ := h.table
  by_cases hdata : data.val = []
  · exact .inl ⟨by rw [ChunkLog.put, dif_pos hdata], storeChunk_of_empty hdata, .inl hdata⟩
  · by_cases hnew : hash ∉ log.hashes
    · have hfind := h.findByHash_of_notMem hnew
      by_cases hroom : log.chunks.length < maxChunks
      · refine .inr (.inr ⟨⟨hash, data.val, List.length_pos_iff.mpr hdata, data.property⟩,
          hnew, hroom, table, htable, rfl, rfl, ?_, ?_⟩)
        · rw [ChunkLog.put, dif_neg hdata, dif_pos hnew, dif_pos hroom]
        · exact storeChunk_of_new hdata h.fp htable hfind (by rw [h.indexed.total]; exact hroom)
      · refine .inl ⟨?_, storeChunk_of_full hfind ?_, .inr hnew⟩
        · rw [ChunkLog.put, dif_neg hdata, dif_pos hnew, dif_neg hroom]
        · rw [h.indexed.total]
          omega
    · obtain ⟨c, hc, hhash⟩ := List.mem_map.mp (not_not.mp hnew)
      obtain ⟨i, hi⟩ := List.mem_iff_getElem?.mp hc
      have hfind : s.findByHash hash = i + 1 := hhash ▸ h.findByHash_eq hi
      refine .inr (.inl ⟨i, c, hi, hhash, ?_, ?_⟩)
      · rw [ChunkLog.put, dif_neg hdata, dif_neg hnew]
      · rw [storeChunk_of_found hdata h.fp htable (by omega), hfind]

end InStep

/-- An event in which nothing fails. -/
def StoreEvent.FaultFree : StoreEvent → Prop
  | .store .none _ _ => True
  | .store _ _ _ => False
  | .incrementRef _ => True
  | .restart => True

/-- A store without faults stands for the log after each event. -/
theorem InStep.step {log : ChunkLog} {s : Module2State} (h : InStep log s) {e : StoreEvent}
    (he : e.FaultFree) : InStep (log.step e) (s.step e) := by
  cases e with
  | store fault hash data =>
    cases fault with
    | write n => exact absurd he id
    | insert => exact absurd he id
    | none =>
      rw [ChunkLog.step, Module2State.step]
      rcases h.storeChunk_cases hash data with
        ⟨hput, hstore, -⟩ | ⟨i, c, -, -, hput, hstore⟩ |
        ⟨c, hnew, hroom, table, htable, -, -, hput, hstore⟩
      · rwa [hput, hstore]
      · rw [hput, hstore]
        exact h.incrementRef _
      · rw [hput, hstore]
        exact h.push c hnew hroom htable
  | incrementRef cid => exact h.incrementRef cid
  | restart =>
    rw [ChunkLog.step, Module2State.step, module2Close, h.file]
    exact inStep_module2Init log

/-- **Refinement.** In a run without faults the store stands for the log throughout. -/
theorem InStep.run {log : ChunkLog} {s : Module2State} (h : InStep log s) {es : List StoreEvent}
    (hes : ∀ e ∈ es, e.FaultFree) :
    InStep (Runs.run ChunkLog.step log es) (Runs.run Module2State.step s es) := by
  induction es generalizing log s with
  | nil => exact h
  | cons e es ih =>
    obtain ⟨he, hrest⟩ := List.forall_mem_cons.mp hes
    exact ih (h.step he) hrest

end SecureWan.ByteCache
