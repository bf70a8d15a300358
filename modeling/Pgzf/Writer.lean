import Pgzf.Compress
import Pgzf.Library.Chunks

/-!
# The writer (`writer.rs`)

`PgzfWriter` collects what it is given into blocks, the blocks into groups, and writes a group when
it is full: its members, an index member, and at last the length of the group into the header the
group began with. `finish` closes the block and the group that are still open.
-/

namespace Pgzf

variable (D : Deps)

structure PendingBlock where
  data : Bytes
  blockType : BlockType
  deriving DecidableEq, Repr

structure CompressedBlock where
  header : Bytes
  compressed : Bytes
  trailer : Bytes
  zc : UInt32
  uncompressedSize : UInt32
  deriving DecidableEq, Repr

/-- The writer; `inner` is there until `finish` gives it back. -/
structure PgzfWriter where
  inner : Sink
  config : PgzfConfig
  buffer : Bytes
  bufferLen : Nat
  pendingBlocks : List PendingBlock
  blocksInGroup : Nat
  groupStartOffset : Nat
  totalUncompressed : Nat
  totalCompressed : Nat
  totalBlocks : Nat
  gcPending : Bool
  deriving DecidableEq, Repr

namespace PgzfWriter

/-- An operation of the sink. -/
def onInner {α : Type} (m : Prog Sink α) : Prog PgzfWriter α :=
  Program.onPart PgzfWriter.inner (fun w inner => { w with inner := inner }) m

/-- `vec![0u8; n]`: a vector has at most `isize::MAX` bytes. -/
def zeroed {σ : Type} (n : Nat) : Prog σ Bytes :=
  if n < 2 ^ 63 then return List.replicate n 0 else throw (.panic "capacity overflow")

/-- A writer with the given buffer, positioned where its sink is; 0 where the sink cannot tell. -/
def onSink (inner : Sink) (config : PgzfConfig) (buffer : Bytes) : PgzfWriter :=
  let (offset, inner) := match Sink.streamPosition inner with
    | .ok offset inner => (offset, inner)
    | .error _ inner => (0, inner)
  { inner := inner
    config := config
    buffer := buffer
    bufferLen := 0
    pendingBlocks := []
    blocksInGroup := 0
    groupStartOffset := offset
    totalUncompressed := 0
    totalCompressed := 0
    totalBlocks := 0
    gcPending := false }

/-- The buffer is allocated behind the look at the sink;
where that panics there is no writer, only the sink. -/
def withConfig (inner : Sink) (config : PgzfConfig) : EStateM.Result Fault PgzfWriter Unit :=
  (do
    let buffer ← zeroed config.blockSize
    modify fun w => { w with buffer := buffer } : Prog PgzfWriter Unit) (onSink inner config [])

/-- A program on the writer `with_config` returns. -/
def onNew {α : Type} (inner : Sink) (config : PgzfConfig) (m : Prog PgzfWriter α) :
    EStateM.Result Fault PgzfWriter α :=
  match withConfig inner config with
  | .ok _ w => m w
  | .error fault w => .error fault w

def bytesWritten (w : PgzfWriter) : Nat := w.totalUncompressed

def blocksWritten (w : PgzfWriter) : Nat := w.totalBlocks

def compressSingleBlock (level : Nat) (data : Bytes) (blockType : BlockType) :
    Except PgzfError CompressedBlock :=
  match compressBlock D level data with
  | .error e => .error e
  | .ok compressed =>
    let crc := D.hash data
    let headerSize := match blockType with
      | .beg => begHeaderSize
      | _ => datHeaderSize
    let zc := UInt32.ofNat (headerSize + compressed.length + pgzfTailSize)
    let header := match blockType with
      | .beg => buildBegHeader zc
      | _ => buildDatHeader zc
    let trailer := List.replicate pgzfTailSize 0
    let trailer := writeU32Le trailer 0 crc
    let trailer := writeU32Le trailer 4 (UInt32.ofNat data.length)
    .ok ⟨header, compressed, trailer, zc, UInt32.ofNat data.length⟩

/-- Write one compressed block; its entry for the index table is the result. -/
def writeCompressed (cb : CompressedBlock) : Prog PgzfWriter IndexEntry := do
  onInner (Sink.writeAll cb.header)
  onInner (Sink.writeAll cb.compressed)
  onInner (Sink.writeAll cb.trailer)
  modify fun w => { w with
    totalCompressed := w.totalCompressed + cb.zc.toNat
    totalUncompressed := w.totalUncompressed + cb.uncompressedSize.toNat
    totalBlocks := w.totalBlocks + 1 }
  return ⟨cb.zc, cb.uncompressedSize⟩

/-- What the workers of the thread pool make of the blocks of a batch. -/
class CompressPool (D : Deps) where
  compressAll : Nat → List PendingBlock → Prog PgzfWriter (List CompressedBlock)

/-- One batch: all of its blocks are compressed before the first of them is written. -/
def writeBatch [CompressPool D] (level : Nat) (batch : List PendingBlock) :
    Prog PgzfWriter (List IndexEntry) := do
  let compressed ← CompressPool.compressAll D level batch
  compressed.mapM writeCompressed

/-- Write the index member of a group. -/
def writeIdx (level : Nat) (blockEntries : List IndexEntry) : Prog PgzfWriter Unit := do
  let emptyCompressed ← Prog.ofExcept (compressBlock D level [])
  let idxHeaderSize := idxHeaderBaseSize + blockEntries.length * 8
  let idxZc := UInt32.ofNat (idxHeaderSize + emptyCompressed.length + pgzfTailSize)
  onInner (Sink.writeAll (buildIdxHeader idxZc blockEntries))
  onInner (Sink.writeAll emptyCompressed)
  onInner (Sink.writeAll (List.replicate pgzfTailSize 0))
  modify fun w => { w with totalCompressed := w.totalCompressed + idxZc.toNat }

/-- Write the length of the group into the header it began with. -/
def backpatchGc (blockEntries : List IndexEntry) : Prog PgzfWriter Unit := do
  let w ← get
  if w.gcPending then
    let gcValue := UInt64.ofNat (blockEntries.map fun e => e.compressedSize.toNat).sum
    let gcFileOffset := w.groupStartOffset + gcValueOffset
    let currentPos ← onInner Sink.streamPosition
    onInner (Sink.seekStart gcFileOffset)
    onInner (Sink.writeAll (writeU64Le (List.replicate 8 0) 0 gcValue))
    onInner (Sink.seekStart currentPos)
    modify fun w => { w with gcPending := false }

def flushGroup [CompressPool D] : Prog PgzfWriter Unit := do
  let w ← get
  if w.pendingBlocks.isEmpty then
    return ()
  else if w.config.compressionBatchSize = 0 then
    throw (.panic "chunk size must be non-zero")
  else
    let level := w.config.compressionLevel
    let entries ← (Chunks.chunks w.config.compressionBatchSize w.pendingBlocks).mapM
      (writeBatch D level)
    let blockEntries := entries.flatten
    writeIdx D level blockEntries
    backpatchGc blockEntries
    modify fun w => { w with blocksInGroup := 0, pendingBlocks := [] }
    let offset ← onInner Sink.streamPosition
    modify fun w => { w with groupStartOffset := offset }

def bufferBlock [CompressPool D] : Prog PgzfWriter Unit := do
  let w ← get
  if w.bufferLen = 0 then
    return ()
  else
    let blockType := if w.blocksInGroup = 0 then BlockType.beg else BlockType.dat
    let buffer ← zeroed w.config.blockSize
    let data := w.buffer.take w.bufferLen
    set { w with
      buffer := buffer
      pendingBlocks := w.pendingBlocks ++ [(⟨data, blockType⟩ : PendingBlock)]
      blocksInGroup := w.blocksInGroup + 1
      bufferLen := 0
      gcPending := if blockType = BlockType.beg then true else w.gcPending }
    if w.blocksInGroup + 1 ≥ w.config.groupBlocks then
      Prog.expect "failed to flush group" (flushGroup D)
    else
      return ()

/-- The loop of `write`. A turn that takes no byte is repeated for ever, which the turns allowed,
one for each byte and one to stop, make visible. -/
def writeLoop [CompressPool D] (buf : Bytes) : Nat → Nat → Prog PgzfWriter Nat
  | 0, _ => throw .diverges
  | fuel + 1, consumed => do
    if consumed < buf.length then
      let w ← get
      if w.config.blockSize < w.bufferLen then
        throw (.panic "attempt to subtract with overflow")
      else
        let space := w.config.blockSize - w.bufferLen
        let take := min space (buf.length - consumed)
        if w.buffer.length < w.bufferLen + take then
          throw (.panic "range end index out of range")
        else
          set { w with
            buffer := overwrite w.buffer w.bufferLen (slice buf consumed (consumed + take))
            bufferLen := w.bufferLen + take }
          if w.bufferLen + take = w.config.blockSize then
            bufferBlock D
          writeLoop buf fuel (consumed + take)
    else
      return consumed

def write [CompressPool D] (buf : Bytes) : Prog PgzfWriter Nat := writeLoop D buf (buf.length + 1) 0

/-- Close the open block and the open group, and give the sink back. -/
def finish [CompressPool D] : Prog PgzfWriter Sink := do
  bufferBlock D
  flushGroup D
  return (← get).inner

/-- A run of `write` calls. -/
def writeMany [CompressPool D] (bufs : List Bytes) : Prog PgzfWriter Unit := do
  let _ ← bufs.mapM (write D)

/-- What a writer leaves in its sink: a run of `write` calls, and `finish`. -/
def run [CompressPool D] (inner : Sink) (config : PgzfConfig) (bufs : List Bytes) :
    EStateM.Result Fault PgzfWriter Sink :=
  onNew inner config do
    writeMany D bufs
    finish D

/-- `flush` does nothing: a group is written when it is full, or by `finish`. -/
def flush : Prog PgzfWriter Unit := return ()

/-- A call of the `Write` trait. -/
inductive WriteCall where
  | write (buf : Bytes)
  | flush
  deriving DecidableEq, Repr

/-- The bytes a call hands over. -/
def WriteCall.bytes : WriteCall → Bytes
  | .write buf => buf
  | .flush => []

def call [CompressPool D] : WriteCall → Prog PgzfWriter Unit
  | .write buf => do let _ ← write D buf
  | .flush => flush

/-- What a writer leaves in its sink after any calls of the `Write` trait, and `finish`. -/
def runCalls [CompressPool D] (inner : Sink) (config : PgzfConfig) (calls : List WriteCall) :
    EStateM.Result Fault PgzfWriter Sink :=
  onNew inner config do
    let _ ← calls.mapM (call D)
    finish D

/-- The blocks one after the other; of several that
fail to compress, the first one's error is reported. -/
instance : CompressPool D where
  compressAll level batch :=
    Prog.ofExcept (batch.mapM fun block => compressSingleBlock D level block.data block.blockType)

theorem compressAll_eq (level : Nat) (batch : List PendingBlock) :
    CompressPool.compressAll D level batch = Prog.ofExcept (batch.mapM fun block =>
      compressSingleBlock D level block.data block.blockType) := rfl

end PgzfWriter

end Pgzf
