import Pgzf.Reader

/-!
# Slices in their bounds

The model writes `&buf[from..to]` as a function that is total. Here are the functions that parse
untrusted bytes with every slice and every copy checked, as the language does it. They agree with
the model, so no slice is out of its bounds, but for the buffer of a raw block that is shorter than
the header copied into it.
-/

namespace Pgzf

open PgzfReader

variable {α : Type} {D : Deps}

def sliceChecked (buf : Bytes) (from' to' : Nat) : Except Fault Bytes :=
  if from' ≤ to' ∧ to' ≤ buf.length then .ok (slice buf from' to')
  else .error (.panic "range end index out of range for slice")

def copyChecked (buf : Bytes) (from' to' : Nat) (data : Bytes) : Except Fault Bytes :=
  if from' ≤ to' ∧ to' ≤ buf.length then
    if data.length = to' - from' then .ok (overwrite buf from' data)
    else .error (.panic "source slice length does not match destination slice length")
  else
    .error (.panic "range end index out of range for slice")

theorem sliceChecked_of_le {buf : Bytes} {from' to' : Nat} (hle : from' ≤ to')
    (hto : to' ≤ buf.length) :
    sliceChecked buf from' to' = .ok (slice buf from' to') := if_pos ⟨hle, hto⟩

/-! ### The tag loops -/

/-- `tlvLoop`, checked. -/
def tlvLoopChecked (add : α → Bytes → Bytes → Except Fault α) (extra : Bytes) :
    Nat → Nat → α → Except Fault α
  | 0, _, acc => .ok acc
  | fuel + 1, off, acc =>
    if off + 4 ≤ extra.length then do
      let tag ← sliceChecked extra off (off + 2)
      let len ← sliceChecked extra (off + 2) (off + 4)
      let slen := (readU16Le len).toNat
      if off + 4 + slen > extra.length then
        return acc
      else
        let data ← sliceChecked extra (off + 4) (off + 4 + slen)
        let acc ← add acc tag data
        tlvLoopChecked add extra fuel (off + 4 + slen) acc
    else
      return acc

theorem tlvLoopChecked_eq {add : α → Bytes → Bytes → α}
    {addChecked : α → Bytes → Bytes → Except Fault α}
    (hadd : ∀ acc tag data, addChecked acc tag data = .ok (add acc tag data)) (extra : Bytes)
    (fuel off : Nat) (acc : α) :
    tlvLoopChecked addChecked extra fuel off acc = .ok (tlvLoop add extra fuel off acc) := by
  induction fuel generalizing off acc with
  | zero => rfl
  | succ fuel ih =>
    rw [tlvLoopChecked, tlvLoop]
    by_cases hoff : off + 4 ≤ extra.length
    · rw [if_pos hoff, if_pos hoff, sliceChecked_of_le (by omega) (by omega),
        sliceChecked_of_le (by omega) hoff]
      simp only [bind, Except.bind]
      by_cases hslen : off + 4 + (readU16Le (slice extra (off + 2) (off + 4))).toNat > extra.length
      · rw [if_pos hslen, if_pos hslen]
        rfl
      · rw [if_neg hslen, if_neg hslen, sliceChecked_of_le (by omega) (by omega)]
        simp only [hadd]
        exact ih _ _
    · rw [if_neg hoff, if_neg hoff]
      rfl

def PgzfReader.RawTags.addChecked (acc : RawTags) (tag data : Bytes) : Except Fault RawTags :=
  if tag = tagZc ∧ 4 ≤ data.length then do
    let zc ← sliceChecked data 0 4
    return { acc with zc := readU32Le zc }
  else if tag = tagGc then
    return { acc with hasGc := true }
  else if tag = tagIx then
    return { acc with hasIx := true }
  else
    return acc

theorem PgzfReader.RawTags.addChecked_eq (acc : RawTags) (tag data : Bytes) :
    acc.addChecked tag data = .ok (acc.add tag data) := by
  rw [RawTags.addChecked, RawTags.add]
  split
  · rename_i htag
    rw [sliceChecked_of_le (Nat.zero_le _) htag.2]
    rfl
  · split
    · rfl
    · split <;> rfl

def parseEntriesChecked (data : Bytes) : Except Fault (List IndexEntry) :=
  (List.range (data.length / 8)).mapM fun i => do
    let compressedSize ← sliceChecked data (i * 8) (i * 8 + 4)
    let uncompressedSize ← sliceChecked data (i * 8 + 4) (i * 8 + 8)
    return ⟨readU32Le compressedSize, readU32Le uncompressedSize⟩

theorem parseEntriesChecked_eq (data : Bytes) :
    parseEntriesChecked data = .ok (parseEntries data) := by
  rw [parseEntriesChecked, parseEntries]
  apply Program.mapM_except_ok
  intro i hi
  have hlt := List.mem_range.mp hi
  rw [sliceChecked_of_le (by omega) (by omega), sliceChecked_of_le (by omega) (by omega)]
  rfl

/-- `ExtraField.add`, checked. -/
def ExtraField.addChecked (acc : ExtraField) (tag data : Bytes) : Except Fault ExtraField :=
  if tag = tagZc ∧ 4 ≤ data.length then do
    let zc ← sliceChecked data 0 4
    return { acc with zc := readU32Le zc }
  else if tag = tagGc ∧ 8 ≤ data.length then do
    let gc ← sliceChecked data 0 8
    return { acc with gc := some (readU64Le gc) }
  else if tag = tagIx ∧ 8 ≤ data.length ∧ data.length % 8 = 0 then do
    let entries ← parseEntriesChecked data
    return { acc with ix := some entries }
  else
    return acc

theorem ExtraField.addChecked_eq (acc : ExtraField) (tag data : Bytes) :
    acc.addChecked tag data = .ok (acc.add tag data) := by
  have hfront : ∀ n, (slice data 0 n).take n = data.take n := by
    intro n
    rw [slice, List.drop_zero, List.take_take, Nat.min_self]
  rw [ExtraField.addChecked, ExtraField.add]
  split
  · rename_i htag
    rw [sliceChecked_of_le (Nat.zero_le _) htag.2]
    simp only [bind, Except.bind, readU32Le, hfront]
    rfl
  · split
    · rename_i htag
      rw [sliceChecked_of_le (Nat.zero_le _) htag.2]
      simp only [bind, Except.bind, readU64Le, hfront]
      rfl
    · split
      · rw [parseEntriesChecked_eq]
        rfl
      · rfl

/-! ### Raw blocks -/

/-- The data of a raw block, checked. -/
def decompressRawBlockWithChecked (D : Deps) (raw : Bytes) (headerSize : Nat) :
    Except Fault (Except PgzfError Bytes) :=
  let zc := raw.length
  if zc < pgzfTailSize + headerSize then
    return .ok []
  else do
    let trailerOff := zc - pgzfTailSize
    let size ← sliceChecked raw (trailerOff + 4) (trailerOff + 8)
    let expectedSize := (readU32Le size).toNat
    if expectedSize = 0 then
      return .ok []
    else
      let deflateData ← sliceChecked raw headerSize trailerOff
      match decompressBlock D deflateData expectedSize with
      | .error e => return .error (.io ⟨.invalidData, e.display⟩)
      | .ok output =>
        let crc ← sliceChecked raw trailerOff (trailerOff + 4)
        let expectedCrc := readU32Le crc
        let actualCrc := D.hash output
        if actualCrc ≠ expectedCrc then
          return .error
            (.io ⟨.invalidData, "CRC32 mismatch: expected " ++ hexPadded 10 expectedCrc.toNat ++
            ", computed " ++ hexPadded 10 actualCrc.toNat⟩)
        else
          return .ok output

theorem decompressRawBlockWithChecked_eq (D : Deps) (raw : Bytes) (headerSize : Nat) :
    decompressRawBlockWithChecked D raw headerSize =
      .ok (decompressRawBlockWith D raw headerSize) := by
  rw [decompressRawBlockWithChecked, decompressRawBlockWith]
  have htail : pgzfTailSize = 8 := rfl
  by_cases hshort : raw.length < pgzfTailSize + headerSize
  · simp only [if_pos hshort]
    rfl
  · simp only [if_neg hshort]
    rw [sliceChecked_of_le (by omega) (by omega)]
    simp only [bind, Except.bind]
    by_cases hzero : (readU32Le
      (slice raw (raw.length - pgzfTailSize + 4) (raw.length - pgzfTailSize + 8))).toNat = 0
    · simp only [if_pos hzero]
      rfl
    · simp only [if_neg hzero]
      rw [sliceChecked_of_le (by omega) (by omega)]
      simp only
      cases decompressBlock D (slice raw headerSize (raw.length - pgzfTailSize))
          (readU32Le (slice raw (raw.length - pgzfTailSize + 4)
              (raw.length - pgzfTailSize + 8))).toNat with
      | error e => rfl
      | ok output =>
        simp only
        rw [sliceChecked_of_le (by omega) (by omega)]
        simp only
        split <;> rfl

/-- The buffer of `read_one_raw_block`: `zc` zeros, into which the pieces of the header are copied,
and the rest of the member behind them. -/
def rawBufferChecked (zc : Nat) (headerBuf xlenBuf extra rest : Bytes) : Except Fault Bytes := do
  let raw := List.replicate zc 0
  let raw ← copyChecked raw 0 gzipFixedHeaderSize headerBuf
  let raw ← copyChecked raw gzipFixedHeaderSize (gzipFixedHeaderSize + 2) xlenBuf
  let raw ← copyChecked raw (gzipFixedHeaderSize + 2) (gzipFixedHeaderSize + 2 + extra.length) extra
  let headerSize := gzipFixedHeaderSize + 2 + extra.length
  copyChecked raw headerSize (headerSize + (zc - headerSize)) rest

theorem copyChecked_zeros (front data : Bytes) (n : Nat) :
    copyChecked (front ++ List.replicate (data.length + n) 0) front.length
      (front.length + data.length) data =
      .ok (front ++ data ++ List.replicate n 0) := by
  rw [copyChecked, if_pos, if_pos (by omega), overwrite_zeros front data _ _ n rfl rfl]
  rw [List.length_append, List.length_replicate]
  omega

theorem copyChecked_out {buf data : Bytes} {from' to' : Nat} (h : buf.length < to') :
    copyChecked buf from' to' data = .error (.panic "range end index out of range for slice") :=
  if_neg fun hin => absurd hin.2 (Nat.not_le.mpr h)

/-- The copies are in bounds exactly when the header fits into the buffer. -/
theorem rawBufferChecked_eq {zc : Nat} {headerBuf xlenBuf extra rest : Bytes}
    (hheader : headerBuf.length = gzipFixedHeaderSize) (hxlen : xlenBuf.length = 2)
    (hrest : rest.length = zc - (gzipFixedHeaderSize + 2 + extra.length)) :
    rawBufferChecked zc headerBuf xlenBuf extra rest =
      if zc < gzipFixedHeaderSize + 2 + extra.length then .error
        (.panic "range end index out of range for slice")
      else .ok (headerBuf ++ xlenBuf ++ extra ++ rest) := by
  rw [← hheader, ← hxlen] at hrest
  rw [rawBufferChecked, ← hheader, ← hxlen]
  by_cases hbase : zc < headerBuf.length
  · rw [if_pos (by omega), copyChecked_out (by rw [List.length_replicate]; exact hbase)]
    rfl
  · obtain ⟨n, rfl⟩ : ∃ n, zc = headerBuf.length + n := ⟨zc - headerBuf.length, by omega⟩
    have hfirst := copyChecked_zeros [] headerBuf n
    rw [List.nil_append, List.length_nil, Nat.zero_add, List.nil_append] at hfirst
    rw [hfirst]
    simp only [bind, Except.bind]
    by_cases hmid : n < xlenBuf.length
    · rw [if_pos (by omega),
        copyChecked_out (by rw [List.length_append, List.length_replicate]; omega)]
    · obtain ⟨m, rfl⟩ : ∃ m, n = xlenBuf.length + m := ⟨n - xlenBuf.length, by omega⟩
      rw [copyChecked_zeros headerBuf xlenBuf m]
      simp only
      rw [← List.length_append] at hrest ⊢
      by_cases hextra : m < extra.length
      · rw [if_pos (by rw [List.length_append]; omega),
          copyChecked_out (by rw [List.length_append, List.length_replicate]; omega)]
      · obtain ⟨k, rfl⟩ : ∃ k, m = extra.length + k := ⟨m - extra.length, by omega⟩
        have hk : k = rest.length + 0 := by
          rw [List.length_append] at hrest
          omega
        have hlast := copyChecked_zeros (headerBuf ++ xlenBuf ++ extra) rest 0
        rw [List.replicate_zero, List.append_nil] at hlast
        rw [if_neg (by rw [List.length_append]; omega),
          copyChecked_zeros (headerBuf ++ xlenBuf) extra k]
        simp only
        rw [← hrest, ← List.length_append, hk]
        exact hlast

/-- The parsing functions keep within the bounds of what they are given, whatever it is. The only
slice that can be out of bounds is that of a header copied into the buffer of a raw block. -/
structure SlicesInBounds (D : Deps) : Prop where
  rawTags : ∀ extra acc, tlvLoopChecked RawTags.addChecked extra extra.length 0 acc =
    .ok (tlvLoop RawTags.add extra extra.length 0 acc)
  extraField : ∀ extra acc, tlvLoopChecked ExtraField.addChecked extra extra.length 0 acc =
    .ok (tlvLoop ExtraField.add extra extra.length 0 acc)
  entries : ∀ data, parseEntriesChecked data = .ok (parseEntries data)
  block : ∀ raw headerSize, decompressRawBlockWithChecked D raw headerSize =
    .ok (decompressRawBlockWith D raw headerSize)
  buffer : ∀ zc headerBuf xlenBuf extra rest, headerBuf.length = gzipFixedHeaderSize →
    xlenBuf.length = 2 →
    rest.length = zc - (gzipFixedHeaderSize + 2 + extra.length) →
      rawBufferChecked zc headerBuf xlenBuf extra rest =
      if zc < gzipFixedHeaderSize + 2 + extra.length then .error
        (.panic "range end index out of range for slice")
      else .ok (headerBuf ++ xlenBuf ++ extra ++ rest)

theorem slicesInBounds (D : Deps) : SlicesInBounds D where
  rawTags extra acc := tlvLoopChecked_eq RawTags.addChecked_eq extra extra.length 0 acc
  extraField extra acc := tlvLoopChecked_eq ExtraField.addChecked_eq extra extra.length 0 acc
  entries := parseEntriesChecked_eq
  block := decompressRawBlockWithChecked_eq D
  buffer _ _ _ _ _ := rawBufferChecked_eq

end Pgzf
