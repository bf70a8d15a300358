import Pgzf.Index

/-!
# Inspecting a file (`main.rs`, `-i`)

`inspect_file` takes a file for PGZF where its index can be built, and reads it as a gzip member
otherwise. What is printed is a `Report`; the ratio of its two sizes is left out.
-/

namespace Pgzf

open PgzfIndex

inductive Report where
  | pgzf (groups dataBlocks totalUncompressed totalCompressed : Nat)
  | gzip (method : String) (modified : UInt32) (compressedSize : Nat) (uncompressedSize : UInt32)
  deriving DecidableEq, Repr

namespace Source

/-- `metadata()?.len()`. -/
def fileLen : Prog Source Nat := do
  tick
  return (← get).bytes.length

/-- `seek(SeekFrom::Current(n))`. -/
def seekForward (n : Nat) : Prog Source Unit := do
  tick
  modify fun s => { s with pos := s.pos + n }

/-- `seek(SeekFrom::End(-n))`. -/
def seekBack (n : Nat) : Prog Source Unit := do
  tick
  let s ← get
  if s.bytes.length < n then
    throw (.error (.io ⟨.invalidInput, "Invalid argument (os error 22)"⟩))
  else
    set { s with pos := s.bytes.length - n }

end Source

/-- Skip a field that ends with a zero byte. A turn reads a byte, so one for each byte of the file
and one to stop are enough. -/
def skipField : Nat → Prog Source Unit
  | 0 => throw .diverges
  | fuel + 1 => do
    let b ← Source.readExact 1
    if b.getD 0 0 = 0 then
      return ()
    else
      skipField fuel

/-- Skip an extra field. -/
def skipExtra : Prog Source Unit := do
  let xlenBuf ← Source.readExact 2
  Source.seekForward (readU16Le xlenBuf).toNat

/-- Skip the fields that the flags announce; a checksum of the header is not looked at. -/
def skipFields (flg : UInt8) (fileLen : Nat) : Prog Source Unit := do
  (if flg &&& 0x04 ≠ 0 then skipExtra else pure ())
  (if flg &&& 0x08 ≠ 0 then skipField (fileLen + 1) else pure ())
  (if flg &&& 0x10 ≠ 0 then skipField (fileLen + 1) else pure ())

def gzipMethod (cm : UInt8) : String :=
  if cm = 0 then "store" else if cm = 8 then "deflate" else "unknown"

/-- `inspect_gzip` on the open file: nothing where the magic is missing, which is reported as
`not a gzip file`. -/
def inspectGzip : Prog Source (Option Report) := do
  let fileLen ← Source.fileLen
  let header ← Source.readExact 10
  if header.getD 0 0 ≠ 0x1f ∨ header.getD 1 0 ≠ 0x8b then
    return none
  else
    let cm := header.getD 2 0
    let flg := header.getD 3 0
    let mtime := readU32Le (slice header 4 8)
    skipFields flg fileLen
    Source.seekBack 8
    let footer ← Source.readExact 8
    return some (.gzip (gzipMethod cm) mtime fileLen (readU32Le (slice footer 4 8)))

/-- The report on a file whose index can be built. -/
def PgzfIndex.report (index : PgzfIndex) : Report :=
  .pgzf index.groupCount index.blockCount index.totalUncompressed index.totalCompressed

end Pgzf
