import Pgzf.BlockCache
import Pgzf.Decompress
import Pgzf.Index

/-!
# The reader (`reader.rs`)

`PgzfReader` serves a file block by block: the block being served, a queue of blocks read ahead, and
a cache of decompressed blocks. A seek only notes its target; the next `read` carries it out. The
queue is refilled a batch at a time by `fillReadahead`, which takes from the cache what is there and
reads the rest from the file, range by range.
-/

namespace Pgzf

variable (D : Deps)

def defaultReadahead : Nat := 8
def defaultBlockCacheCapacity : Nat := 64

structure RawBlock where
  raw : Bytes
  headerSize : Nat
  blockType : BlockType
  blockIndex : Nat
  deriving DecidableEq, Repr

structure PgzfReader where
  inner : Source
  isPgzf : Bool
  index : Option PgzfIndex
  currentBlock : Bytes
  currentPos : Nat
  eof : Bool
  pendingSeek : Option Nat
  readahead : List Bytes
  readaheadSize : Nat
  readaheadMemoryLimit : Option Nat
  nextBlockIndex : Nat
  blockCache : BlockCache D

namespace PgzfReader

/-- `PgzfReader::new`, which runs on the source; an error leaves no reader. -/
def new : Prog Source (PgzfReader D) := do
  Source.seekStart 0
  let header ← Source.readExact gzipFixedHeaderSize
  let (flg, xfl) ← Prog.ofExcept (validateGzipHeader header)
  let isPgzf := isPgzfMember flg xfl
  let index ← if isPgzf then do
      Source.seekStart 0
      let index ← PgzfIndex.build
      pure (some index)
    else
      pure none
  Source.seekStart 0
  return {
    inner := ← get
    isPgzf := isPgzf
    index := index
    currentBlock := []
    currentPos := 0
    eof := false
    pendingSeek := none
    readahead := []
    readaheadSize := defaultReadahead
    readaheadMemoryLimit := none
    nextBlockIndex := 0
    blockCache := BlockCache.new D defaultBlockCacheCapacity }

variable {D}

def withReadahead (r : PgzfReader D) (size : Nat) : PgzfReader D :=
  { r with readaheadSize := max size 1 }

/-- `set_readahead_size` does the same in place. -/
def setReadaheadSize (n : Nat) : Prog (PgzfReader D) Unit :=
  modify fun r => { r with readaheadSize := max n 1 }

def withReadaheadMemoryLimit (r : PgzfReader D) (maxBytes : Nat) : PgzfReader D :=
  { r with readaheadMemoryLimit := some maxBytes }

def withBlockCache (r : PgzfReader D) (capacity : Nat) : PgzfReader D :=
  { r with blockCache := BlockCache.new D capacity }

def withBlockCacheMemoryLimit (r : PgzfReader D) (capacity maxBytes : Nat) : PgzfReader D :=
  { r with blockCache := (BlockCache.new D capacity).withMemoryLimit maxBytes }

def blockCount (r : PgzfReader D) : Option Nat := r.index.map PgzfIndex.blockCount

def readaheadMemoryUsage (r : PgzfReader D) : Nat := (r.readahead.map List.length).sum

def totalMemoryUsage (r : PgzfReader D) : Nat :=
  r.blockCache.memoryUsage + r.readaheadMemoryUsage + r.currentBlock.length

/-- An operation of the source. -/
def onInner {α : Type} (m : Prog Source α) : Prog (PgzfReader D) α :=
  Program.onPart PgzfReader.inner (fun r inner => { r with inner := inner }) m

def seekToByte (offset : Nat) : Prog (PgzfReader D) Unit := do
  let r ← get
  if !r.isPgzf then
    throw (.error .indexNotAvailable)
  else
    set { r with
      pendingSeek := some offset
      nextBlockIndex := 0
      currentBlock := []
      currentPos := 0
      readahead := [] }

/-- The number is an `i64`. -/
def seekToBlock (blockIndex : Int) : Prog (PgzfReader D) Unit := do
  let r ← get
  if !r.isPgzf then
    throw (.error .indexNotAvailable)
  else
    match r.index with
    | none => throw (.panic "called `Option::unwrap()` on a `None` value")
    | some index =>
      let compressedOffset ← index.seekBlock blockIndex
      onInner (Source.seekStart compressedOffset)
      modify fun r => { r with
        nextBlockIndex := 0
        currentBlock := []
        currentPos := 0
        eof := false
        pendingSeek := none
        readahead := [] }

/-! ### Raw blocks -/

/-- The variables of the tag loop of `read_one_raw_block`. -/
structure RawTags where
  zc : UInt32
  hasGc : Bool
  hasIx : Bool
  deriving DecidableEq, Repr

/-- What `read_one_raw_block` does with one sub-field. -/
def RawTags.add (acc : RawTags) (tag data : Bytes) : RawTags :=
  if tag = tagZc ∧ 4 ≤ data.length then
    { acc with zc := readU32Le (slice data 0 4) }
  else if tag = tagGc then
    { acc with hasGc := true }
  else if tag = tagIx then
    { acc with hasIx := true }
  else
    acc

def RawTags.blockType (tags : RawTags) : BlockType :=
  if tags.hasIx then .idx else if tags.hasGc then .beg else .dat

/-- The tags of an extra field. -/
def rawTags (extra : Bytes) : RawTags := tlvLoop RawTags.add extra extra.length 0 ⟨0, false, false⟩

/-- Read the member the source stands at; nothing at the end of the file, and nothing for a `ZC` of
0. -/
def readOneRawBlock : Prog (PgzfReader D) (Option RawBlock) := do
  match ← Prog.attempt (onInner (Source.readExact gzipFixedHeaderSize)) with
  | .error (.io e) => if e.kind = .unexpectedEof then return none else throw (.error (.io e))
  | .error e => throw (.error e)
  | .ok headerBuf =>
    let xlenBuf ← onInner (Source.readExact 2)
    let xlen := (readU16Le xlenBuf).toNat
    let extra ← onInner (Source.readExact xlen)
    let tags := rawTags extra
    let blockIndex := (← get).nextBlockIndex
    if tags.blockType ≠ .idx then
      modify fun r => { r with nextBlockIndex := r.nextBlockIndex + 1 }
    if tags.zc = 0 then
      return none
    else if tags.zc.toNat > 2 ^ 30 then
      throw
        (.error (.invalidFormat ("block size too large: " ++ toString tags.zc.toNat ++ " bytes")))
    else
      let headerSize := gzipFixedHeaderSize + 2 + xlen
      let remaining := tags.zc.toNat - headerSize
      -- the buffer has `ZC` bytes, and the header is copied to its front
      if tags.zc.toNat < headerSize then
        throw (.panic "range end index out of range for slice")
      else
        let rest ← onInner (Source.readExact remaining)
        return some ⟨headerBuf ++ xlenBuf ++ extra ++ rest, headerSize, tags.blockType, blockIndex⟩

variable (D)

/-- The data of a raw block. -/
def decompressRawBlockWith (raw : Bytes) (headerSize : Nat) : Except PgzfError Bytes :=
  let zc := raw.length
  if zc < pgzfTailSize + headerSize then
    .ok []
  else
    let trailerOff := zc - pgzfTailSize
    let expectedSize := (readU32Le (slice raw (trailerOff + 4) (trailerOff + 8))).toNat
    if expectedSize = 0 then
      .ok []
    else
      let deflateData := slice raw headerSize trailerOff
      match decompressBlock D deflateData expectedSize with
      | .error e => .error (.io ⟨.invalidData, e.display⟩)
      | .ok output =>
        let expectedCrc := readU32Le (slice raw trailerOff (trailerOff + 4))
        let actualCrc := D.hash output
        if actualCrc ≠ expectedCrc then
          .error
            (.io ⟨.invalidData, "CRC32 mismatch: expected " ++ hexPadded 10 expectedCrc.toNat ++
            ", computed " ++ hexPadded 10 actualCrc.toNat⟩)
        else
          .ok output

variable {D}

/-- What the workers of the thread pool make of the raw blocks of a batch. -/
class DecompressPool (D : Deps) where
  decompressBlocks : List (Bytes × Nat) → Prog (PgzfReader D) (List Bytes)
  decompressAhead : List (Nat × Bytes × Nat) → Prog (PgzfReader D) (List (Nat × Bytes))

/-- The loop of `read_blocks`: raw data blocks until there are `count` of them, or the source ends.
As in `readRange`, one turn for each byte of the file and one to stop are enough. -/
def readBlocksLoop : Nat → Nat → List (Bytes × Nat) → Prog (PgzfReader D) (List (Bytes × Nat))
  | 0, _, _ => throw .diverges
  | fuel + 1, count, rawBatch =>
    if count = 0 then
      return rawBatch
    else do
      match ← readOneRawBlock with
      | none => return rawBatch
      | some block =>
        if block.blockType = .idx then
          readBlocksLoop fuel count rawBatch
        else
          readBlocksLoop fuel (count - 1) (rawBatch ++ [(block.raw, block.headerSize)])

/-- The data of `count` blocks from `startBlock` on. -/
def readBlocks [DecompressPool D] (startBlock count : Nat) : Prog (PgzfReader D) Bytes := do
  let r ← get
  if !r.isPgzf then
    throw (.error .indexNotAvailable)
  else
    match r.index with
    | none => throw (.panic "called `Option::unwrap()` on a `None` value")
    | some index =>
      if startBlock ≥ index.blockCount then
        throw (.error (.seekBeyondEnd startBlock index.blockCount))
      else
        let limit ← addU64 startBlock count
        let actualCount := min index.blockCount limit - startBlock
        if actualCount = 0 then
          return []
        else
          match index.compressedOffset startBlock with
          | none => throw (.panic "called `Option::unwrap()` on a `None` value")
          | some offset =>
            onInner (Source.seekStart offset)
            modify fun r => { r with nextBlockIndex := startBlock }
            let rawBatch ← readBlocksLoop ((← get).inner.bytes.length + 1) actualCount []
            let decompressed ← DecompressPool.decompressBlocks rawBatch
            modify fun r => { r with
              currentBlock := []
              currentPos := 0
              eof := false
              pendingSeek := none
              readahead := [] }
            return decompressed.flatten

/-! ### Reading ahead -/

/-- Group block indices into contiguous ranges, given as first index and end. -/
def groupContiguousLoop : List Nat → Nat → Nat → List (Nat × Nat)
  | [], start, prev => [(start, prev + 1)]
  | idx :: rest, start, prev =>
    if idx = prev + 1 then groupContiguousLoop rest start idx
    else (start, prev + 1) :: groupContiguousLoop rest idx idx

def groupContiguous : List Nat → List (Nat × Nat)
  | [] => []
  | first :: rest => groupContiguousLoop rest first first

/-- Look the blocks up one after another; each one's data, where it is cached. -/
def cacheLookups : List Nat → BlockCache D → List (Option Bytes) × BlockCache D
  | [], cache => ([], cache)
  | blockIdx :: rest, cache =>
    let (found, cache) := cache.get blockIdx
    let (others, cache) := cacheLookups rest cache
    (found :: others, cache)

/-- The inner loop of phase 2: read data blocks until there are `count` of them, skipping index
members. The flag says whether the source ended first. A member is at least as long as its header,
so one turn for each byte of the file and one to stop are enough. -/
def readRange :
    Nat → Nat → List (Nat × Bytes × Nat) → Prog (PgzfReader D) (List (Nat × Bytes × Nat) × Bool)
  | 0, _, _ => throw .diverges
  | fuel + 1, count, allRaw =>
    if count = 0 then
      return (allRaw, false)
    else do
      match ← Prog.intoIo readOneRawBlock with
      | none => return (allRaw, true)
      | some block =>
        if block.blockType = .idx then
          readRange fuel count allRaw
        else
          let blockIdx := (← get).nextBlockIndex - 1
          readRange fuel (count - 1) (allRaw ++ [(blockIdx, block.raw, block.headerSize)])

/-- The outer loop of phase 2: seek to each range and read it, until the source ends. -/
def readRanges : List ((Nat × Nat) × Nat) → List (Nat × Bytes × Nat) →
    Prog (PgzfReader D) (List (Nat × Bytes × Nat) × Bool)
  | [], allRaw => return (allRaw, false)
  | ((first, stop), offset) :: rest, allRaw => do
    Prog.intoIo (onInner (Source.seekStart offset))
    modify fun r => { r with nextBlockIndex := first }
    let (allRaw, eof) ← readRange ((← get).inner.bytes.length + 1) (stop - first) allRaw
    if eof then
      return (allRaw, true)
    else
      readRanges rest allRaw

/-- Put the decompressed blocks into the cache and into their places in the batch. -/
def storeBlocks (start : Nat) :
    List (Nat × Bytes) → List (Option Bytes) → Prog (PgzfReader D) (List (Option Bytes))
  | [], results => return results
  | (blockIdx, data) :: rest, results => do
    modify fun r => { r with blockCache := r.blockCache.insert blockIdx data }
    if blockIdx < start ∨ results.length ≤ blockIdx - start then
      throw (.panic "index out of bounds")
    else
      storeBlocks start rest (results.set (blockIdx - start) (some data))

/-- Fetch the batch of the blocks `start` to `stop`. -/
def fetchBatch [DecompressPool D] (index : PgzfIndex) (start stop : Nat) :
    Prog (PgzfReader D) Unit := do
  let batch := List.range' start (stop - start)
  let r ← get
  let (found, cache) := cacheLookups batch r.blockCache
  let nonCached := (batch.zip found).filterMap fun (blockIdx, data) =>
    if data.isNone then some blockIdx else none
  let ranges := groupContiguous nonCached
  let rangesWithOffsets := ranges.map fun range => (range, (index.compressedOffset range.1).getD 0)
  let lastEnd := (ranges.getLast?.map Prod.snd).getD start
  let lastEndOffset := (index.compressedOffset lastEnd).getD index.totalCompressed
  let (results, cache) := cacheLookups batch cache
  set { r with blockCache := cache }
  let (results, hitEof) ← if rangesWithOffsets.isEmpty then do
      modify fun r => { r with nextBlockIndex := stop }
      pure (results, false)
    else do
      let (allRaw, eof) ← readRanges rangesWithOffsets []
      let decompressed ← DecompressPool.decompressAhead allRaw
      let results ← storeBlocks start decompressed results
      Prog.intoIo (onInner (Source.seekStart lastEndOffset))
      modify fun r => { r with nextBlockIndex := lastEnd }
      pure (results, eof)
  modify fun r => { r with readahead := r.readahead ++ results.filterMap id }
  let r ← get
  if r.readahead.isEmpty && (hitEof || decide (stop ≥ index.blockCount)) then
    set { r with eof := true }

def fillReadahead [DecompressPool D] : Prog (PgzfReader D) Unit := do
  let r ← get
  if !r.isPgzf then
    return ()
  else if !r.readahead.isEmpty then
    return ()
  else if r.readaheadMemoryLimit.any fun limit => r.totalMemoryUsage ≥ limit then
    return ()
  else
    match r.index with
    | none => return ()
    | some index =>
      let start := r.nextBlockIndex
      if start ≥ index.blockCount then
        set { r with eof := true }
      else
        let limit ← addU64 start r.readaheadSize
        fetchBatch index start (min index.blockCount limit)

/-! ### Serving -/

def executePendingSeek [DecompressPool D] : Prog (PgzfReader D) Unit := do
  let r ← get
  match r.pendingSeek with
  | none => return ()
  | some targetByte =>
    set { r with pendingSeek := none }
    match r.index with
    | none => throw (.error (.io ⟨.unsupported, "not a PGZF file"⟩))
    | some index =>
      match index.seekByte D targetByte with
      | .error e => throw (.error (.io ⟨.invalidInput, e.display⟩))
      | .ok (blockIdx, skip) =>
        modify fun r => { r with
          currentBlock := [], currentPos := 0, eof := false, readahead := [] }
        let r ← get
        let (cached, cache) := r.blockCache.get blockIdx
        set { r with blockCache := cache }
        match cached with
        | some cached =>
          modify fun r => { r with currentBlock := cached, currentPos := skip }
          let nextOffset := (index.compressedOffset (blockIdx + 1)).getD index.totalCompressed
          onInner (Source.seekStart nextOffset)
          modify fun r => { r with nextBlockIndex := blockIdx + 1 }
        | none =>
          match index.compressedOffset blockIdx with
          | none => throw (.error (.io ⟨.invalidInput, "block not found"⟩))
          | some compressedOffset =>
            onInner (Source.seekStart compressedOffset)
            modify fun r => { r with nextBlockIndex := blockIdx }
            fillReadahead
            let r ← get
            match r.readahead with
            | buf :: rest =>
              set { r with currentBlock := buf, currentPos := skip, readahead := rest }
            | [] => set { r with eof := true }

/-- Take the next block off the queue, where there is one, and serve its first bytes. -/
def serveNext (n : Nat) : Prog (PgzfReader D) (Option Bytes) := do
  let r ← get
  match r.readahead with
  | [] => return none
  | next :: rest =>
    let take := min next.length n
    set { r with currentBlock := next, currentPos := take, readahead := rest }
    return some (next.take take)

/-- The loop of `advance_to_next_block_sequential`; a member is at least 28 bytes, so one turn for
each byte of the file and one to stop are enough. -/
def advanceSequentialLoop : Nat → Prog (PgzfReader D) Unit
  | 0 => throw .diverges
  | fuel + 1 => do
    match ← Prog.intoIo (onInner (readPgzfBlock D)) with
    | some (data, blockType, _) =>
      if blockType = .idx then
        advanceSequentialLoop fuel
      else if data.isEmpty then
        modify fun r => { r with eof := true }
      else
        modify fun r => { r with currentBlock := data, currentPos := 0 }
    | none => modify fun r => { r with eof := true }

def advanceToNextBlockSequential : Prog (PgzfReader D) Unit := do
  advanceSequentialLoop ((← get).inner.bytes.length + 1)

/-- The part of `read` behind the current block: the bytes put into a buffer of `n` bytes. -/
def readNextBlock [DecompressPool D] (n : Nat) : Prog (PgzfReader D) Bytes := do
  let r ← get
  if r.isPgzf then
    match ← serveNext n with
    | some out => return out
    | none =>
      fillReadahead
      match ← serveNext n with
      | some out => return out
      | none =>
        modify fun r => { r with eof := true }
        return []
  else
    advanceToNextBlockSequential
    let r ← get
    if r.currentBlock.isEmpty || r.eof then
      return []
    else
      let take := min r.currentBlock.length n
      set { r with currentPos := take }
      return r.currentBlock.take take

/-- `read` into a buffer of `n` bytes: the bytes put into it. -/
def read [DecompressPool D] (n : Nat) : Prog (PgzfReader D) Bytes := do
  if n = 0 then
    return []
  else
    executePendingSeek
    let r ← get
    if r.currentPos < r.currentBlock.length then
      let available := r.currentBlock.drop r.currentPos
      let take := min available.length n
      set { r with currentPos := r.currentPos + take }
      return available.take take
    else if r.eof then
      return []
    else
      readNextBlock n

/-! ### `Seek` -/

/-- `std::io::SeekFrom`: an offset is a `u64` from the start, and an `i64` otherwise. -/
inductive SeekFrom where
  | start (n : Nat)
  | fromEnd (n : Int)
  | current (n : Int)
  deriving DecidableEq, Repr

/-- `(n as i64 + m) as u64`. -/
def offsetI64 {σ : Type} (n : Nat) (m : Int) : Prog σ Nat :=
  let signed : Int := if n < 2 ^ 63 then n else (n : Int) - 2 ^ 64
  if -2 ^ 63 ≤ signed + m ∧ signed + m < 2 ^ 63 then
    return ((signed + m) % 2 ^ 64).toNat
  else
    throw (.panic "attempt to add with overflow")

/-- `Seek::seek`: like `seek_to_byte`, the target is only noted. -/
def seek (pos : SeekFrom) : Prog (PgzfReader D) Nat := do
  let r ← get
  let total := (r.index.map PgzfIndex.totalUncompressed).getD 0
  let target ← match pos with
    | .start n => pure n
    | .fromEnd n =>
      if !r.isPgzf then
        throw (.error (.io ⟨.unsupported, "seek from end requires PGZF index"⟩))
      else
        offsetI64 total n
    | .current n => offsetI64 r.currentPos n
  modify fun r => { r with
    pendingSeek := some target
    nextBlockIndex := 0
    currentBlock := []
    currentPos := 0
    readahead := [] }
  return target

/-- Read into buffers of the given sizes until a read returns no bytes; nothing where the buffers do
not last until then. -/
def readToEnd [DecompressPool D] : List Nat → Prog (PgzfReader D) (Option Bytes)
  | [] => return none
  | n :: sizes => do
    let out ← read n
    if out.isEmpty then
      return some []
    else
      let rest ← readToEnd sizes
      return rest.map (out ++ ·)

/-! ### In order -/

/-- The raw blocks one after the other. -/
def decompressAll (D : Deps) (allRaw : List (Nat × Bytes × Nat)) :
    Except PgzfError (List (Nat × Bytes)) :=
  allRaw.mapM fun (blockIdx, raw, headerSize) =>
    match decompressRawBlockWith D raw headerSize with
    | .ok data => .ok (blockIdx, data)
    | .error e => .error e

instance : DecompressPool D where
  decompressBlocks rawBatch :=
    Prog.ofExcept (rawBatch.mapM fun (raw, headerSize) => decompressRawBlockWith D raw headerSize)
  decompressAhead allRaw := Prog.ofExcept (decompressAll D allRaw)

theorem decompressBlocks_eq (rawBatch : List (Bytes × Nat)) :
    (DecompressPool.decompressBlocks rawBatch : Prog (PgzfReader D) (List Bytes)) =
      Prog.ofExcept (rawBatch.mapM fun (raw, headerSize) =>
        decompressRawBlockWith D raw headerSize) :=
  rfl

end PgzfReader

end Pgzf
