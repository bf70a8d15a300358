import Pgzf.Compress

/-!
# The sequential block reader (`decompress.rs`)

`read_pgzf_block` reads one gzip member and its data from wherever the source stands. The reader
uses it for files without the PGZF marker.
-/

namespace Pgzf

variable (D : Deps)

def readPgzfBlock : Prog Source (Option (Bytes × BlockType × UInt32)) := do
  match ← Prog.attempt (Source.readExact gzipFixedHeaderSize) with
  | .error (.io e) => if e.kind = .unexpectedEof then return none else throw (.error (.io e))
  | .error e => throw (.error e)
  | .ok headerBuf =>
    let (flg, xfl) ← Prog.ofExcept (validateGzipHeader headerBuf)
    let isPgzf := isPgzfMember flg xfl
    let xlenBuf ← Source.readExact 2
    let xlen := (readU16Le xlenBuf).toNat
    let extra ← Source.readExact xlen
    let field ← Prog.ofExcept (parseExtraField (xlenBuf ++ extra) isPgzf)
    let blockType := determineBlockType field.gc field.ix
    let headerSize := match blockType with
      | .beg => begHeaderSize
      | .dat => datHeaderSize
      | .idx => idxHeaderBaseSize + (field.ix.elim 0 fun entries => entries.length * 8)
    if field.zc.toNat < headerSize + pgzfTailSize then
      throw (.error (.invalidFormat "ZC too small"))
    else
      let deflateData ← Source.readExact (field.zc.toNat - (headerSize + pgzfTailSize))
      let trailer ← Source.readExact pgzfTailSize
      let expectedCrc := readU32Le (slice trailer 0 4)
      let expectedSize := (readU32Le (slice trailer 4 8)).toNat
      if blockType = .idx then
        return some ([], blockType, field.zc)
      else
        let output ← Prog.ofExcept (decompressBlock D deflateData (max expectedSize 1))
        let actualCrc := D.hash output
        if actualCrc ≠ expectedCrc then
          throw (.error (.crcMismatch expectedCrc actualCrc))
        else
          return some (output, blockType, field.zc)

end Pgzf
