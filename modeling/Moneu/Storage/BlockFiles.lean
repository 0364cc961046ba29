/-
# Block files over a whole history

The block files under any sequence of block writes, writes that fail part way through a record, other
database writes, and kills of the process.  A kill in the middle of a write is a failed write
followed by the kill: what the process had in memory is gone in either case, and what had reached the
disk is there in either case.

The position of a record is computed from the file size BEFORE the append, and after a rollover it is
taken to be zero without a look at the next file.  Both are right (`Kept`): the number of the last
file is in the database before the file exists, so the next file is always a new one.

What is not right is the content.  `WriteBlockToDisk` writes any block, and `ReadBlockFromDisk` reads
a record back through `Block::Deserialize`, which refuses blocks beyond the limits of
`Block.WithinLimits`.  A position is returned for such a block that nothing can ever be read from.
-/
import Moneu.Storage.BlockStore

namespace Moneu.BlockData

open NetParams Decoder

/-! ## 1. Histories -/

/-- What happens to the block store. -/
inductive FileEvent
  /-- `WriteBlockToDisk` returns a position. -/
  | write (block : Block)
  /-- `WriteBlockToDisk` throws before it has a file to append to; a rollover is in the database. -/
  | openFailed (block : Block)
  /-- `WriteBlockToDisk` throws after `written` bytes of the record. -/
  | writeFailed (block : Block) (written : Nat)
  /-- Any database write that is not about the block files. -/
  | database (index : AList fun _ : Bytes32 => BlockIndexEntry)
      (undo : AList fun _ : Bytes32 => List UInt8) (txIndex : AList fun _ : Bytes32 => Bytes32)
  /-- The process is killed and started again. -/
  | kill

/-- The block an event writes, or tries to write. -/
def FileEvent.block? : FileEvent → Option Block
  | .write block => some block
  | .openFailed block => some block
  | .writeFailed block _ => some block
  | .database .. => none
  | .kill => none

/-- The block store, with the positions returned so far and the blocks they were returned for. -/
structure FileLog where
  store : BlockData
  returned : List (DiskBlockPos × Block)

namespace FileLog

def fresh : FileLog := { store := openDB BlockDB.empty, returned := [] }

def step (s : FileLog) : FileEvent → FileLog
  | .write block =>
    { store := (s.store.writeBlockToDisk block).1
      returned := ((s.store.writeBlockToDisk block).2, block) :: s.returned }
  | .openFailed block => { s with store := (s.store.selectFile block).1 }
  | .writeFailed block written => { s with store := s.store.writeBlockToDiskFailed block written }
  | .database index undo txIndex =>
    { s with store := s.store.write { s.store.db with index, undo, txIndex } }
  | .kill => { s with store := openDB s.store.db }

def run (s : FileLog) (events : List FileEvent) : FileLog := events.foldl step s

/-! ## 2. What every history keeps -/

/-- **The invariant**: the last file is known, no file is longer than the limit, and every position
that was returned holds the record it was returned for. -/
structure Kept (s : FileLog) : Prop where
  files : FilesOk s.store
  length_le : ∀ n, (file s.store.db n).length ≤ MAX_BLOCK_FILE_SIZE
  records : ∀ q ∈ s.returned, RecordAt s.store.db q.1 q.2

theorem file_append (db : BlockDB) (nFile n : Int) (bytes : List UInt8) :
    file (append db nFile bytes) n = if n = nFile then file db nFile ++ bytes else file db n := by
  unfold append file
  split
  · rename_i heq
    rw [heq, AList.lookup_insert, Option.getD_some]
  · rename_i hne
    rw [AList.lookup_insert_ne hne]

theorem length_record (block : Block) : (record block).length = block.getSerializedSize + 8 := by
  simp only [record, List.length_append, length_leBytes, Block.length_serialize]
  change 4 + (4 + _) = _
  omega

/-- The files are not touched when the file to append to is selected. -/
theorem file_selectFile (bd : BlockData) (block : Block) (n : Int) :
    file (bd.selectFile block).1.db n = file bd.db n := by
  unfold selectFile
  dsimp only
  split <;> rfl

theorem selectFile_room (bd : BlockData) {block : Block}
    (hsize : block.getSerializedSize ≤ MAX_BLOCK_SIZE) :
    (bd.selectFile block).2 + (record block).length ≤ MAX_BLOCK_FILE_SIZE := by
  have hmax : MAX_BLOCK_SIZE + 8 ≤ MAX_BLOCK_FILE_SIZE := by decide
  rw [length_record]
  unfold selectFile
  simp only [Block.length_serialize]
  split
  · simp only
    omega
  · simp only
    omega

/-- The first bytes of a record, or all of them, fit into the file they are appended to. -/
theorem length_le_append {s : FileLog} (h : Kept s) {block : Block}
    (hsize : block.getSerializedSize ≤ MAX_BLOCK_SIZE) {bytes : List UInt8}
    (hbytes : bytes.length ≤ (record block).length) (n : Int) :
    (file (append (s.store.selectFile block).1.db (s.store.selectFile block).1.lastBlockFile bytes)
      n).length ≤ MAX_BLOCK_FILE_SIZE := by
  have hroom := selectFile_room s.store hsize
  rw [(selectFile_spec h.files block).2] at hroom
  rw [file_append]
  split
  · rw [List.length_append]
    omega
  · rw [file_selectFile]
    exact h.length_le n

theorem Kept.step {s : FileLog} (h : Kept s) {e : FileEvent}
    (hsize : ∀ block ∈ e.block?, block.getSerializedSize ≤ MAX_BLOCK_SIZE) : Kept (s.step e) := by
  cases e with
  | write block =>
    have hblock := hsize block rfl
    obtain ⟨hkept, hrec⟩ := writeBlockToDisk_spec h.files hblock
    refine ⟨hkept.files, length_le_append h hblock le_rfl, ?_⟩
    intro q hq
    rcases List.mem_cons.1 hq with rfl | hq
    · exact hrec
    · exact hkept.records _ _ (h.records q hq)
  | openFailed block =>
    have hkept := (selectFile_spec h.files block).1
    refine ⟨hkept.files, fun n => ?_, fun q hq => hkept.records _ _ (h.records q hq)⟩
    exact (congrArg List.length (file_selectFile s.store block n)).trans_le (h.length_le n)
  | writeFailed block written =>
    have hkept := appended_writeBlockToDiskFailed h.files block written
    refine ⟨hkept.files, length_le_append h (hsize block rfl) ?_,
      fun q hq => hkept.records _ _ (h.records q hq)⟩
    exact List.length_take_le' written (record block)
  | database index undo txIndex =>
    exact ⟨⟨h.files.last, h.files.nonneg, h.files.above⟩, h.length_le,
      fun q hq => (h.records q hq).congr rfl⟩
  | kill => exact ⟨h.files.openDB, h.length_le, fun q hq => (h.records q hq).congr rfl⟩

theorem Kept.run {events : List FileEvent}
    (hsize : ∀ e ∈ events, ∀ block ∈ e.block?, block.getSerializedSize ≤ MAX_BLOCK_SIZE) :
    ∀ {s : FileLog}, Kept s → Kept (s.run events) := by
  induction events with
  | nil => exact fun h => h
  | cons e events ih =>
    intro s h
    have hstep := h.step (hsize e (List.mem_cons_self ..))
    exact ih (fun e' he' => hsize e' (List.mem_cons_of_mem _ he')) hstep

/-! ## 3. Reading back -/

end FileLog

end Moneu.BlockData
