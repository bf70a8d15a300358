import Pgzf.Compress

/-!
# The index (`index.rs`)

`build` walks the groups of a file: it reads a header, jumps over the group by its `GC` value, reads
the index member there and goes on behind it. The offsets it stores are the running sums of the
sizes the index tables list. They and the group count are `Nat`s: an overflow of those needs an
index of `2 ^ 32` blocks. The positions it seeks to are checked sums, since `GC` is whatever the
file says.
-/

namespace Pgzf

variable (D : Deps)

structure BlockMeta where
  groupIndex : UInt32
  blockInGroup : UInt32
  compressedSize : UInt32
  uncompressedSize : UInt32
  deriving DecidableEq, Repr

structure PgzfIndex where
  blocks : List BlockMeta
  compressedOffsets : List Nat
  uncompressedOffsets : List Nat
  groupCount : Nat
  deriving DecidableEq, Repr

/-- `a + b` on `u64` or `usize` values. -/
def addU64 {σ : Type} (a b : Nat) : Prog σ Nat :=
  if a + b < 2 ^ 64 then pure (a + b) else throw (.panic "attempt to add with overflow")

theorem addU64_of_lt {σ : Type} {a b : Nat} (h : a + b < 2 ^ 64) (s : σ) :
    (addU64 a b : Prog σ Nat) s = .ok (a + b) s := by
  rw [addU64, if_pos h, Program.pure_apply]

theorem addU64_of_le {σ : Type} {a b : Nat} (h : 2 ^ 64 ≤ a + b) (s : σ) :
    (addU64 a b : Prog σ Nat) s = .error (.panic "attempt to add with overflow") s := by
  rw [addU64, if_neg (Nat.not_lt.mpr h), Program.throw_apply]

theorem of_addU64_ok {σ : Type} {a b c : Nat} {s s' : σ}
    (h : (addU64 a b : Prog σ Nat) s = .ok c s') :
    s' = s ∧ a + b < 2 ^ 64 := by
  rw [addU64] at h
  by_cases hlt : a + b < 2 ^ 64
  · rw [if_pos hlt, Program.pure_apply] at h
    exact ⟨(EStateM.Result.ok.inj h).2.symm, hlt⟩
  · rw [if_neg hlt, Program.throw_apply] at h
    exact absurd h (by simp)

namespace PgzfIndex

/-- The local variables of `build`. -/
structure Scan where
  blocks : List BlockMeta
  compressedOffsets : List Nat
  uncompressedOffsets : List Nat
  cumC : Nat
  cumU : Nat
  groupCount : Nat
  deriving DecidableEq, Repr

/-- Enter entry `i` of an index table. -/
def Scan.push (ixData : Bytes) (acc : Scan) (i : Nat) : Scan :=
  let entry := entryAt ixData (i * 8)
  { acc with
    compressedOffsets := acc.compressedOffsets ++ [acc.cumC]
    uncompressedOffsets := acc.uncompressedOffsets ++ [acc.cumU]
    blocks := acc.blocks ++
      [⟨UInt32.ofNat acc.groupCount, UInt32.ofNat i, entry.compressedSize, entry.uncompressedSize⟩]
    cumC := acc.cumC + entry.compressedSize.toNat
    cumU := acc.cumU + entry.uncompressedSize.toNat }

/-- The index member of a group: enter its table, and go on behind it. -/
def scanIdx (idxStart : Nat) (acc : Scan) : Prog Source Scan := do
  Source.seekStart idxStart
  let idxFixed ← Source.readExact idxHeaderBaseSize
  let (_, idxXfl) ← Prog.ofExcept (validateGzipHeader idxFixed)
  if idxXfl ≠ pgzfXflMarker then
    throw (.error (.invalidFormat "IDX block not PGZF"))
  else
    let idxXlen := (readU16Le (slice idxFixed 10 12)).toNat
    if idxXlen < 8 + 4 then
      throw (.error (.invalidFormat "invalid IDX XLEN"))
    else
      let ixDataSize := idxXlen - (8 + 4)
      let numEntries := ixDataSize / 8
      let ixData ← Source.readExact ixDataSize
      let acc := (List.range numEntries).foldl (Scan.push ixData) acc
      let idxZc := readU32Le (slice idxFixed zcValueOffset (zcValueOffset + 4))
      Source.seekStart (← addU64 idxStart idxZc.toNat)
      return { acc with cumC := acc.cumC + idxZc.toNat, groupCount := acc.groupCount + 1 }

/-- One turn of the loop, with the header of the group read: nothing where the scan ends. -/
def scanGroup (groupStart : Nat) (begBuf : Bytes) (acc : Scan) : Prog Source (Option Scan) := do
  let (flg, xfl) ← Prog.ofExcept (validateGzipHeader begBuf)
  if !isPgzfMember flg xfl then
    throw (.error (.invalidFormat "not a PGZF file"))
  else
    let gc := readU64Le (slice begBuf gcValueOffset (gcValueOffset + 8))
    if gc = 0 then
      return none
    else
      let idxStart ← addU64 groupStart gc.toNat
      return some (← scanIdx idxStart acc)

/-- The loop of `build`. A group starts inside the file and the next one starts behind it, so one
turn for each byte and one to stop are enough. -/
def buildLoop : Nat → Scan → Prog Source Scan
  | 0, _ => throw .diverges
  | fuel + 1, acc => do
    match ← Prog.attempt Source.streamPosition with
    | .error _ => return acc
    | .ok groupStart =>
      match ← Prog.attempt (Source.readExact begHeaderSize) with
      | .error (.io e) => if e.kind = .unexpectedEof then return acc else throw (.error (.io e))
      | .error e => throw (.error e)
      | .ok begBuf =>
        match ← scanGroup groupStart begBuf acc with
        | none => return acc
        | some acc => buildLoop fuel acc

def build : Prog Source PgzfIndex := do
  Source.seekStart 0
  let acc ← buildLoop ((← get).bytes.length + 1) ⟨[], [], [], 0, 0, 0⟩
  return ⟨acc.blocks, acc.compressedOffsets ++ [acc.cumC], acc.uncompressedOffsets ++ [acc.cumU],
    acc.groupCount⟩

def blockCount (index : PgzfIndex) : Nat := index.blocks.length

def totalUncompressed (index : PgzfIndex) : Nat := index.uncompressedOffsets.getLast?.getD 0

def totalCompressed (index : PgzfIndex) : Nat := index.compressedOffsets.getLast?.getD 0

def compressedOffset (index : PgzfIndex) (blockIndex : Nat) : Option Nat :=
  index.compressedOffsets[blockIndex]?

def blockMeta (index : PgzfIndex) (i : Nat) : Option BlockMeta := index.blocks[i]?

def seekByte (index : PgzfIndex) (offset : Nat) : Except PgzfError (Nat × Nat) :=
  if offset > index.totalUncompressed then
    .error (.seekBeyondEnd offset index.totalUncompressed)
  else
    let blockIdx := match D.binarySearch index.uncompressedOffsets offset with
      | .ok i => i
      | .error i => if i > 0 then i - 1 else 0
    .ok (blockIdx, offset - index.uncompressedOffsets.getD blockIdx 0)

/-- Where the block with the given `i64` number starts; a negative number counts from the end. -/
def seekBlock {σ : Type} (index : PgzfIndex) (i : Int) : Prog σ Nat := do
  let actual ← (if i < 0 then
      if i = -2 ^ 63 then
        throw (.panic "attempt to negate with overflow")
      else if (-i).toNat > index.blocks.length then
        throw (.error (.seekBeyondEnd (i % 2 ^ 64).toNat index.blocks.length))
      else
        pure (index.blocks.length - (-i).toNat)
    else
      pure i.toNat : Prog σ Nat)
  if actual ≥ index.blocks.length then
    throw (.error (.seekBeyondEnd actual index.blocks.length))
  else
    match index.compressedOffsets[actual]? with
    | some offset => return offset
    | none => throw (.panic "index out of bounds")

end PgzfIndex

end Pgzf
