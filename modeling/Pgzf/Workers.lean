import Pgzf.Library.WorkSplitting
import Pgzf.Reader
import Pgzf.Writer

/-!
# The workers (`compress.rs` and the parallel batches)

A batch of blocks is compressed, or decompressed, by the workers of a thread pool. A worker keeps
one compressor, with the state of its stream and its output buffer, or one decompressor, and resets
it in front of every block. `Flate` is what such a stream is: behind a reset it behaves as a new
one, which is how it is documented.

Whatever a worker has done before, it does to a block what a new compressor or decompressor does.
-/

namespace Pgzf

open WorkSplitting PgzfReader

/-- The streams of `flate2` with the state they keep between two calls. -/
structure Flate (D : Deps) where
  Compress : Type
  newCompress : Nat → Compress
  resetCompress : Compress → Compress
  compress : Compress → Bytes → Nat → Except String (Status × Bytes) × Compress
  level : Compress → Nat
  Decompress : Type
  newDecompress : Decompress
  resetDecompress : Decompress → Decompress
  decompress : Decompress → Bytes → Nat → Except String (Status × Bytes) × Decompress
  level_new : ∀ l, level (newCompress l) = l
  level_reset : ∀ s, level (resetCompress s) = level s
  level_compress : ∀ s data n, level (compress s data n).2 = level s
  compress_reset : ∀ s data n, (compress (resetCompress s) data n).1 = D.compress (level s) data n
  decompress_reset : ∀ s data n, (decompress (resetDecompress s) data n).1 = D.decompress data n

variable {D : Deps}

instance : Inhabited (Flate D) where
  default :=
    { Compress := Nat × Option (Status × Bytes)
      newCompress := fun l => (l, none)
      resetCompress := fun s => (s.1, none)
      compress := fun s data n => (D.compress s.1 data n, (s.1, (D.compress s.1 data n).toOption))
      level := Prod.fst
      Decompress := Option (Status × Bytes)
      newDecompress := none
      resetDecompress := fun _ => none
      decompress := fun _ data n => (D.decompress data n, (D.decompress data n).toOption)
      level_new := fun _ => rfl
      level_reset := fun _ => rfl
      level_compress := fun _ _ _ => rfl
      compress_reset := fun _ _ _ => rfl
      decompress_reset := fun _ _ _ => rfl }

structure ReusableCompressor (F : Flate D) where
  inner : F.Compress
  outputBuf : Bytes

structure ReusableDecompressor (F : Flate D) where
  inner : F.Decompress

namespace ReusableCompressor

variable {F : Flate D}

def new (F : Flate D) (level : Nat) : ReusableCompressor F := ⟨F.newCompress level, []⟩

/-- The buffer is cleared and filled with zeros to the
bound; what the stream writes to its front is the result. -/
def compress (c : ReusableCompressor F) (data : Bytes) :
    Except PgzfError Bytes × ReusableCompressor F :=
  let outputBuf := List.replicate (upperBound data.length) 0
  match F.compress (F.resetCompress c.inner) data (upperBound data.length) with
  | (.error e, inner) => (.error (.deflate e), ⟨inner, outputBuf⟩)
  | (.ok (.bufError, out), inner) =>
    (.error (.deflate "buffer error"), ⟨inner, overwrite outputBuf 0 out⟩)
  | (.ok (_, out), inner) =>
    (.ok ((overwrite outputBuf 0 out).take out.length), ⟨inner, overwrite outputBuf 0 out⟩)

def level (c : ReusableCompressor F) : Nat := F.level c.inner

end ReusableCompressor

namespace ReusableDecompressor

variable {F : Flate D}

def new (F : Flate D) : ReusableDecompressor F := ⟨F.newDecompress⟩

/-- How many bytes have been written to the front of `output`, and what it holds then. -/
def decompress (c : ReusableDecompressor F) (compressed output : Bytes) :
    Except PgzfError (Nat × Bytes) × ReusableDecompressor F :=
  match F.decompress (F.resetDecompress c.inner) compressed output.length with
  | (.error e, inner) => (.error (.inflate e), ⟨inner⟩)
  | (.ok (_, out), inner) => (.ok (out.length, overwrite output 0 out), ⟨inner⟩)

end ReusableDecompressor

theorem take_overwrite_front (content out : Bytes) :
    (overwrite content 0 out).take out.length = out := by
  simp [overwrite]

section Compressing

variable {F : Flate D}

theorem ReusableCompressor.compress_fst (c : ReusableCompressor F) (data : Bytes) :
    (c.compress data).1 = compressBlock D c.level data := by
  have hreset := F.compress_reset c.inner data (upperBound data.length)
  rcases hcall : F.compress (F.resetCompress c.inner) data (upperBound data.length)
    with ⟨answer, inner⟩
  rw [hcall] at hreset
  rw [ReusableCompressor.compress, compressBlock, hcall, level, ← hreset]
  rcases answer with e | ⟨_ | _ | _, out⟩
  · rfl
  · exact congrArg _ (take_overwrite_front _ out)
  · rfl
  · exact congrArg _ (take_overwrite_front _ out)

theorem ReusableCompressor.level_compress (c : ReusableCompressor F) (data : Bytes) :
    (c.compress data).2.level = c.level := by
  have hlevel := F.level_compress (F.resetCompress c.inner) data (upperBound data.length)
  rw [F.level_reset] at hlevel
  rcases hcall : F.compress (F.resetCompress c.inner) data (upperBound data.length)
    with ⟨answer, inner⟩
  rw [hcall] at hlevel
  rw [ReusableCompressor.compress, hcall]
  rcases answer with e | ⟨_ | _ | _, out⟩
  · exact hlevel
  · exact hlevel
  · exact hlevel
  · exact hlevel

/-- Header and trailer around a compressed block. -/
def framed (D : Deps) (data : Bytes) (blockType : BlockType) (compressed : Bytes) :
    CompressedBlock :=
  let crc := D.hash data
  let headerSize := match blockType with
    | .beg => begHeaderSize
    | _ => datHeaderSize
  let zc := UInt32.ofNat (headerSize + compressed.length + pgzfTailSize)
  let header := match blockType with
    | .beg => buildBegHeader zc
    | _ => buildDatHeader zc
  let trailer := List.replicate pgzfTailSize 0
  let trailer := writeU32Le trailer 0 crc
  let trailer := writeU32Le trailer 4 (UInt32.ofNat data.length)
  ⟨header, compressed, trailer, zc, UInt32.ofNat data.length⟩

theorem compressSingleBlock_eq_framed (level : Nat) (data : Bytes) (blockType : BlockType) :
    PgzfWriter.compressSingleBlock D level data blockType = (compressBlock D level data).map
      (framed D data blockType) := by
  unfold PgzfWriter.compressSingleBlock
  cases compressBlock D level data with
  | error e => rfl
  | ok compressed => cases blockType <;> rfl

/-- `compress_single_block` with the compressor of a worker. -/
def compressSingleBlockWith (c : ReusableCompressor F) (block : PendingBlock) :
    Except PgzfError CompressedBlock × ReusableCompressor F :=
  match c.compress block.data with
  | (.error e, c) => (.error e, c)
  | (.ok compressed, c) => (.ok (framed D block.data block.blockType compressed), c)

def compressJob (F : Flate D) (level : Nat) :
    Job (ReusableCompressor F) PendingBlock CompressedBlock PgzfError :=
  ⟨.new F level, compressSingleBlockWith⟩

theorem compressJob_computes (F : Flate D) (level : Nat) :
    (compressJob F level).Computes (fun block =>
      PgzfWriter.compressSingleBlock D level block.data block.blockType)
      fun c => c.level = level := by
  refine ⟨F.level_new level, fun c block hc => ?_, fun c block hc => ?_⟩
  · have hanswer := c.compress_fst block.data
    rw [hc] at hanswer
    show (compressSingleBlockWith c block).1 = _
    rw [compressSingleBlockWith, compressSingleBlock_eq_framed, ← hanswer]
    rcases c.compress block.data with ⟨e | compressed, c'⟩
    · rfl
    · rfl
  · have hlevel := c.level_compress block.data
    rw [hc] at hlevel
    show (compressSingleBlockWith c block).2.level = level
    rw [compressSingleBlockWith]
    rcases hcall : c.compress block.data with ⟨e | compressed, c'⟩
    · rwa [hcall] at hlevel
    · rwa [hcall] at hlevel

end Compressing

section Decompressing

variable {F : Flate D}

theorem ReusableDecompressor.decompress_fst (c : ReusableDecompressor F) (compressed : Bytes)
    (n : Nat) :
    (c.decompress compressed (List.replicate n 0)).1.map (fun answer => answer.2.take answer.1) =
      decompressBlock D compressed n := by
  have hreset := F.decompress_reset c.inner compressed n
  rcases hcall : F.decompress (F.resetDecompress c.inner) compressed n with ⟨answer, inner⟩
  rw [hcall] at hreset
  rw [ReusableDecompressor.decompress, List.length_replicate, hcall, decompressBlock, ← hreset]
  rcases answer with e | ⟨status, out⟩
  · rfl
  · exact congrArg _ (take_overwrite_front _ out)

/-- `decompress_raw_block_with` with the decompressor of a worker. -/
def decompressRawBlockReusing (c : ReusableDecompressor F) (raw : Bytes) (headerSize : Nat) :
    Except PgzfError Bytes × ReusableDecompressor F :=
  let zc := raw.length
  if zc < pgzfTailSize + headerSize then
    (.ok [], c)
  else
    let trailerOff := zc - pgzfTailSize
    let expectedSize := (readU32Le (slice raw (trailerOff + 4) (trailerOff + 8))).toNat
    if expectedSize = 0 then
      (.ok [], c)
    else
      let deflateData := slice raw headerSize trailerOff
      match c.decompress deflateData (List.replicate expectedSize 0) with
      | (.error e, c) => (.error (.io ⟨.invalidData, e.display⟩), c)
      | (.ok (actualSize, output), c) =>
        let output := output.take actualSize
        let expectedCrc := readU32Le (slice raw trailerOff (trailerOff + 4))
        let actualCrc := D.hash output
        if actualCrc ≠ expectedCrc then
          (.error
            (.io ⟨.invalidData, "CRC32 mismatch: expected " ++ hexPadded 10 expectedCrc.toNat ++
            ", computed " ++ hexPadded 10 actualCrc.toNat⟩), c)
        else
          (.ok output, c)

theorem decompressRawBlockReusing_fst (c : ReusableDecompressor F) (raw : Bytes)
    (headerSize : Nat) :
    (decompressRawBlockReusing c raw headerSize).1 = decompressRawBlockWith D raw headerSize := by
  have hanswer := c.decompress_fst (slice raw headerSize (raw.length - pgzfTailSize))
    (readU32Le (slice raw (raw.length - pgzfTailSize + 4) (raw.length - pgzfTailSize + 8))).toNat
  simp only [decompressRawBlockReusing, decompressRawBlockWith, ← hanswer]
  split_ifs with hshort hzero
  · rfl
  · rfl
  · rcases c.decompress _ _ with ⟨e | ⟨size, output⟩, c'⟩
    · rfl
    · simp only [Except.map]
      split_ifs <;> rfl

def decompressJob (F : Flate D) : Job (ReusableDecompressor F) (Bytes × Nat) Bytes PgzfError :=
  ⟨.new F, fun c item => decompressRawBlockReusing c item.1 item.2⟩

theorem decompressJob_computes (F : Flate D) :
    (decompressJob F).Computes (fun (raw, headerSize) => decompressRawBlockWith D raw headerSize)
      fun _ => True :=
  ⟨trivial, fun c item _ => decompressRawBlockReusing_fst c item.1 item.2, fun _ _ _ => trivial⟩

def readaheadJob (F : Flate D) :
    Job (ReusableDecompressor F) (Nat × Bytes × Nat) (Nat × Bytes) PgzfError :=
  ⟨.new F, fun c item =>
    match decompressRawBlockReusing c item.2.1 item.2.2 with
    | (.ok data, c) => (.ok (item.1, data), c)
    | (.error e, c) => (.error e, c)⟩

theorem readaheadJob_computes (F : Flate D) :
    (readaheadJob F).Computes (fun (blockIdx, raw, headerSize) =>
      match decompressRawBlockWith D raw headerSize with
      | .ok data => .ok (blockIdx, data)
      | .error e => .error e) fun _ => True := by
  refine ⟨trivial, fun c item _ => ?_, fun _ _ _ => trivial⟩
  have hanswer := decompressRawBlockReusing_fst c item.2.1 item.2.2
  simp only [readaheadJob, ← hanswer]
  rcases decompressRawBlockReusing c item.2.1 item.2.2 with ⟨e | data, c'⟩
  · rfl
  · rfl

end Decompressing

end Pgzf
