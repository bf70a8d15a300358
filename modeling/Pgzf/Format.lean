import Pgzf.Constants
import Pgzf.Device
import Pgzf.Library.LittleEndian

/-!
# Headers and configuration (`format.rs`)

The byte-order helpers, the header validation and the extra-field parser, the three header builders
and the configuration with its builder. A header is built as the source builds it: a zeroed buffer
whose fields are written in place, at the offsets the source writes them to.
-/

namespace Pgzf

inductive BlockType where
  | beg
  | dat
  | idx
  deriving DecidableEq, Repr

structure IndexEntry where
  compressedSize : UInt32
  uncompressedSize : UInt32
  deriving DecidableEq, Repr

/-! ### Byte order -/

def readU16Le (buf : Bytes) : UInt16 := UInt16.ofNat (LittleEndian.decode (buf.take 2))

def readU32Le (buf : Bytes) : UInt32 := UInt32.ofNat (LittleEndian.decode (buf.take 4))

def readU64Le (buf : Bytes) : UInt64 := UInt64.ofNat (LittleEndian.decode (buf.take 8))

def u16Bytes (val : UInt16) : Bytes := LittleEndian.encode 2 val.toNat

def u32Bytes (val : UInt32) : Bytes := LittleEndian.encode 4 val.toNat

def u64Bytes (val : UInt64) : Bytes := LittleEndian.encode 8 val.toNat

/-- `write_u16_le(&mut buf[off..], val)`. -/
def writeU16Le (buf : Bytes) (off : Nat) (val : UInt16) : Bytes := overwrite buf off (u16Bytes val)

def writeU32Le (buf : Bytes) (off : Nat) (val : UInt32) : Bytes := overwrite buf off (u32Bytes val)

def writeU64Le (buf : Bytes) (off : Nat) (val : UInt64) : Bytes := overwrite buf off (u64Bytes val)

/-- `&buf[from..to]`. -/
def slice (buf : Bytes) (from' to' : Nat) : Bytes := (buf.take to').drop from'

/-! ### Header validation -/

/-- The `FLG` and `XFL` bytes of a header with the gzip magic. -/
def validateGzipHeader (buf : Bytes) : Except PgzfError (UInt8 × UInt8) :=
  if buf.length < gzipFixedHeaderSize then
    .error (.invalidFormat "header too short")
  else if buf.getD 0 0 ≠ gzipId1 ∨ buf.getD 1 0 ≠ gzipId2 then
    .error (.invalidGzipMagic (buf.getD 0 0) (buf.getD 1 0))
  else if buf.getD 2 0 ≠ gzipCmDeflate then
    .error (.invalidFormat ("unsupported CM: " ++ hexPadded 4 (buf.getD 2 0).toNat))
  else
    .ok (buf.getD 3 0, buf.getD 8 0)

def isPgzfMember (flg xfl : UInt8) : Bool := (flg &&& gzipFlgFextra) ≠ 0 && xfl = pgzfXflMarker

/-! ### Extra field -/

/-- The 8-byte entry of an index table that starts at `off`. -/
def entryAt (data : Bytes) (off : Nat) : IndexEntry :=
  ⟨readU32Le (slice data off (off + 4)), readU32Le (slice data (off + 4) (off + 8))⟩

/-- The entries of an index table, as many as its length holds. -/
def parseEntries (data : Bytes) : List IndexEntry :=
  (List.range (data.length / 8)).map fun i => entryAt data (i * 8)

structure ExtraField where
  zc : UInt32
  gc : Option UInt64
  ix : Option (List IndexEntry)
  deriving DecidableEq, Repr

/-- What `parse_extra_field` does with one sub-field. -/
def ExtraField.add (acc : ExtraField) (tag data : Bytes) : ExtraField :=
  if tag = tagZc ∧ 4 ≤ data.length then
    { acc with zc := readU32Le data }
  else if tag = tagGc ∧ 8 ≤ data.length then
    { acc with gc := some (readU64Le data) }
  else if tag = tagIx ∧ 8 ≤ data.length ∧ data.length % 8 = 0 then
    { acc with ix := some (parseEntries data) }
  else
    acc

/-- The tag loop, which the crate has twice; `add` says what a copy does with a sub-field. Each turn
moves `off` by at least four, so as many turns as there are bytes are enough. -/
def tlvLoop {α : Type} (add : α → Bytes → Bytes → α) (extra : Bytes) : Nat → Nat → α → α
  | 0, _, acc => acc
  | fuel + 1, off, acc =>
    if off + 4 ≤ extra.length then
      let tag := slice extra off (off + 2)
      let slen := (readU16Le (slice extra (off + 2) (off + 4))).toNat
      if off + 4 + slen > extra.length then
        acc
      else
        tlvLoop add extra fuel (off + 4 + slen)
          (add acc tag (slice extra (off + 4) (off + 4 + slen)))
    else
      acc

def parseExtraField (buf : Bytes) (isPgzf : Bool) : Except PgzfError ExtraField :=
  if buf.length < 2 then
    .error (.invalidFormat "extra field too short")
  else
    let xlen := (readU16Le buf).toNat
    if buf.length < 2 + xlen then
      .error
        (.invalidFormat ("extra field truncated: need " ++ toString (2 + xlen) ++ " bytes, have " ++
        toString buf.length))
    else
      let extra := slice buf 2 (2 + xlen)
      if !isPgzf then
        .ok ⟨0, none, none⟩
      else
        .ok (tlvLoop ExtraField.add extra extra.length 0 ⟨0, none, none⟩)

def determineBlockType (gc : Option UInt64) (ix : Option (List IndexEntry)) : BlockType :=
  if ix.isSome then .idx else if gc.isSome then .beg else .dat

/-! ### Header building -/

def buildGzipBase (buf : Bytes) : Bytes :=
  let buf := buf.set 0 gzipId1
  let buf := buf.set 1 gzipId2
  let buf := buf.set 2 gzipCmDeflate
  let buf := buf.set 3 gzipFlgFextra
  let buf := overwrite buf 4 [0, 0, 0, 0]
  let buf := buf.set 8 pgzfXflMarker
  buf.set 9 gzipOsUnix

def buildBegHeader (zc : UInt32) : Bytes :=
  let buf := List.replicate begHeaderSize 0
  let buf := buildGzipBase buf
  let buf := writeU16Le buf 10 20
  let buf := overwrite buf 12 tagZc
  let buf := writeU16Le buf 14 4
  let buf := writeU32Le buf 16 zc
  let buf := overwrite buf 20 tagGc
  let buf := writeU16Le buf 22 8
  writeU64Le buf 24 0

def buildDatHeader (zc : UInt32) : Bytes :=
  let buf := List.replicate datHeaderSize 0
  let buf := buildGzipBase buf
  let buf := writeU16Le buf 10 8
  let buf := overwrite buf 12 tagZc
  let buf := writeU16Le buf 14 4
  writeU32Le buf 16 zc

/-- Write the entries of an index table one after another, from `off` on. -/
def writeEntries : List IndexEntry → Bytes → Nat → Bytes
  | [], buf, _ => buf
  | entry :: rest, buf, off =>
    let buf := writeU32Le buf off entry.compressedSize
    let buf := writeU32Le buf (off + 4) entry.uncompressedSize
    writeEntries rest buf (off + 8)

def buildIdxHeader (zc : UInt32) (entries : List IndexEntry) : Bytes :=
  let ixDataSize := entries.length * 8
  let xlen := 8 + 4 + ixDataSize
  let totalHeader := idxHeaderBaseSize + ixDataSize
  let buf := List.replicate totalHeader 0
  let buf := buildGzipBase buf
  let buf := writeU16Le buf 10 (UInt16.ofNat xlen)
  let buf := overwrite buf 12 tagZc
  let buf := writeU16Le buf 14 4
  let buf := writeU32Le buf 16 zc
  let buf := overwrite buf 20 tagIx
  let buf := writeU16Le buf 22 (UInt16.ofNat ixDataSize)
  writeEntries entries buf 24

/-! ### Configuration -/

structure PgzfConfig where
  blockSize : Nat
  groupBlocks : Nat
  compressionLevel : Nat
  cacheMemoryLimitBytes : Option Nat
  readaheadMemoryLimitBytes : Option Nat
  compressionBatchSize : Nat
  deriving DecidableEq, Repr

def PgzfConfig.default : PgzfConfig :=
  ⟨defaultBlockSize, defaultGroupBlocks, defaultCompressionLevel, none, none, 1000⟩

/-- The methods of `PgzfConfigBuilder`. -/
inductive BuilderCall where
  | blockSize (size : Nat)
  | blockSizeMb (mb : Nat)
  | groupBlocks (n : Nat)
  | compressionLevel (level : Nat)
  | cacheMemoryLimitMb (mb : Nat)
  | cacheMemoryLimitBytes (bytes : Nat)
  | readaheadMemoryLimitMb (mb : Nat)
  | readaheadMemoryLimitBytes (bytes : Nat)
  | compressionBatchSize (size : Nat)
  deriving DecidableEq, Repr

/-- `mb * (1 << 20)`, in a `usize`. -/
def mebibytes (mb : Nat) : Except Fault Nat :=
  if mb * 2 ^ 20 < 2 ^ 64 then
    .ok (mb * 2 ^ 20)
  else
    .error (.panic "attempt to multiply with overflow")

def BuilderCall.apply (config : PgzfConfig) : BuilderCall → Except Fault PgzfConfig
  | .blockSize size => .ok { config with blockSize := size }
  | .blockSizeMb mb => (mebibytes mb).map fun size => { config with blockSize := size }
  | .groupBlocks n => .ok { config with groupBlocks := n }
  | .compressionLevel level => .ok { config with compressionLevel := max 1 (min level 9) }
  | .cacheMemoryLimitMb mb =>
    (mebibytes mb).map fun bytes => { config with cacheMemoryLimitBytes := some bytes }
  | .cacheMemoryLimitBytes bytes => .ok { config with cacheMemoryLimitBytes := some bytes }
  | .readaheadMemoryLimitMb mb =>
    (mebibytes mb).map fun bytes => { config with readaheadMemoryLimitBytes := some bytes }
  | .readaheadMemoryLimitBytes bytes => .ok { config with readaheadMemoryLimitBytes := some bytes }
  | .compressionBatchSize size => .ok { config with compressionBatchSize := max size 1 }

/-- `PgzfConfig::builder()`, a chain of builder calls, and `build()`. -/
def PgzfConfig.build (calls : List BuilderCall) : Except Fault PgzfConfig :=
  calls.foldlM BuilderCall.apply .default

theorem mebibytes_of_lt {mb : Nat} (h : mb * 2 ^ 20 < 2 ^ 64) : mebibytes mb = .ok (mb * 2 ^ 20) :=
  if_pos h

theorem of_map_mebibytes {mb : Nat} {f : Nat → PgzfConfig} {config : PgzfConfig}
    (h : (mebibytes mb).map f = .ok config) : ∃ size, config = f size := by
  cases hmb : mebibytes mb with
  | error fault =>
    rw [hmb] at h
    exact absurd h (by simp [Except.map])
  | ok size =>
    rw [hmb] at h
    exact ⟨size, (Except.ok.inj h).symm⟩

theorem BuilderCall.apply_compressionBatchSize_pos {config config' : PgzfConfig}
    (hpos : 0 < config.compressionBatchSize) {call : BuilderCall}
    (h : call.apply config = .ok config') :
    0 < config'.compressionBatchSize := by
  cases call with
  | blockSizeMb mb | cacheMemoryLimitMb mb | readaheadMemoryLimitMb mb =>
    obtain ⟨size, rfl⟩ := of_map_mebibytes h
    exact hpos
  | compressionBatchSize size =>
    rw [← Except.ok.inj h]
    exact Nat.lt_of_lt_of_le Nat.one_pos (Nat.le_max_right _ _)
  | _ =>
    rw [← Except.ok.inj h]
    exact hpos

/-- The builder keeps the batch size positive, so `chunks` is never called with zero. -/
theorem PgzfConfig.build_compressionBatchSize_pos {calls : List BuilderCall} {config : PgzfConfig}
    (h : PgzfConfig.build calls = .ok config) : 0 < config.compressionBatchSize := by
  have hstep : ∀ (calls : List BuilderCall) (start : PgzfConfig), 0 < start.compressionBatchSize →
      calls.foldlM BuilderCall.apply start = .ok config → 0 < config.compressionBatchSize := by
    intro calls
    induction calls with
    | nil =>
      rintro start hpos hrun
      rwa [← Except.ok.inj hrun]
    | cons call rest ih =>
      intro start hpos hrun
      rw [List.foldlM_cons] at hrun
      cases hcall : call.apply start with
      | error fault =>
        rw [hcall] at hrun
        exact absurd hrun (by simp [bind, Except.bind])
      | ok next =>
        rw [hcall] at hrun
        exact ih next (call.apply_compressionBatchSize_pos hpos hcall) hrun
  exact hstep calls .default (by decide) h

end Pgzf
