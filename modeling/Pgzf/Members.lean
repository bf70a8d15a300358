import Pgzf.Parse
import Pgzf.RawBlock

/-!
# The members of a file

The members the writer emits, as the specification describes them, and what the raw reader makes of
them. `Framed` is the reader's side: a member whose `ZC` is its length. Every member below is framed
when its length is within the limit, and a data member decompresses to the block it was made from.
-/

namespace Pgzf

open PgzfReader

variable (D : Deps) (level : Nat)

/-! ### Data members and index members -/

def memberSize (headerSize : Nat) (data : Bytes) : Nat :=
  headerSize + (deflated D level data).length + pgzfTailSize

def memberZc (headerSize : Nat) (data : Bytes) : UInt32 :=
  UInt32.ofNat (memberSize D level headerSize data)

def trailer (data : Bytes) : Bytes := u32Bytes (D.hash data) ++ u32Bytes (UInt32.ofNat data.length)

def begMember (gc : UInt64) (data : Bytes) : Bytes :=
  begHeader (memberZc D level begHeaderSize data) gc ++ deflated D level data ++ trailer D data

def datMember (data : Bytes) : Bytes :=
  datHeader (memberZc D level datHeaderSize data) ++ deflated D level data ++ trailer D data

def idxSize (n : Nat) : Nat :=
  idxHeaderBaseSize + 8 * n + (deflated D level []).length + pgzfTailSize

def idxZc (n : Nat) : UInt32 := UInt32.ofNat (idxSize D level n)

def idxMember (entries : List IndexEntry) : Bytes :=
  idxHeader (idxZc D level entries.length) entries ++ deflated D level [] ++
    List.replicate pgzfTailSize 0

@[simp] theorem length_trailer (data : Bytes) : (trailer D data).length = pgzfTailSize := by
  rw [trailer, List.length_append, length_u32Bytes, length_u32Bytes, pgzfTailSize]

@[simp] theorem length_begMember (gc : UInt64) (data : Bytes) :
    (begMember D level gc data).length = memberSize D level begHeaderSize data := by
  simp only [begMember, List.length_append, length_begHeader, length_trailer, memberSize]

@[simp] theorem length_datMember (data : Bytes) :
    (datMember D level data).length = memberSize D level datHeaderSize data := by
  simp only [datMember, List.length_append, length_datHeader, length_trailer, memberSize]

@[simp] theorem length_idxMember (entries : List IndexEntry) :
    (idxMember D level entries).length = idxSize D level entries.length := by
  simp only [idxMember, List.length_append, length_idxHeader, List.length_replicate, idxSize]

variable {D level}

theorem memberZc_toNat {headerSize : Nat} {data : Bytes}
    (h : memberSize D level headerSize data < 2 ^ 32) :
    (memberZc D level headerSize data).toNat = memberSize D level headerSize data :=
  UInt32.toNat_ofNat_of_lt' h

theorem idxZc_toNat {n : Nat} (h : idxSize D level n < 2 ^ 32) :
    (idxZc D level n).toNat = idxSize D level n :=
  UInt32.toNat_ofNat_of_lt' h

/-! ### Framed members -/

/-- The member `raw` is its own frame: the `ZC` among
its tags is its length, and within the limit. -/
def Framed (raw : Bytes) (headerSize : Nat) (ty : BlockType) : Prop :=
  ∃ base xlen extra body, raw = base ++ (u16Bytes xlen ++ (extra ++ body)) ∧
    base.length = gzipFixedHeaderSize ∧
    extra.length = xlen.toNat ∧ headerSize = gzipFixedHeaderSize + 2 + extra.length ∧
    (rawTags extra).blockType = ty ∧ (rawTags extra).zc.toNat = raw.length ∧ raw.length ≤ 2 ^ 30

theorem framed_memberHeader {extra body : Bytes} {tags : RawTags} (htags : rawTags extra = tags)
    (hextra : extra.length < 2 ^ 16) (hzc : tags.zc.toNat = 12 + extra.length + body.length)
    (hlimit : 12 + extra.length + body.length ≤ 2 ^ 30) :
    Framed (memberHeader extra ++ body) (12 + extra.length) tags.blockType := by
  have hlen : (memberHeader extra ++ body).length = 12 + extra.length + body.length := by
    rw [List.length_append, length_memberHeader]
  refine ⟨gzipBase, UInt16.ofNat extra.length, extra, body, ?_, rfl, ?_, rfl, ?_, ?_, ?_⟩
  · simp only [memberHeader, List.append_assoc]
  · exact (UInt16.toNat_ofNat_of_lt' hextra).symm
  · rw [htags]
  · rw [htags, hlen, hzc]
  · rw [hlen]
    exact hlimit

theorem framed_begHeader {zc : UInt32} {gc : UInt64} {body : Bytes}
    (hzc : zc.toNat = begHeaderSize + body.length) (hlimit : begHeaderSize + body.length ≤ 2 ^ 30) :
    Framed (begHeader zc gc ++ body) begHeaderSize .beg := by
  rw [begHeader]
  refine framed_memberHeader (rawTags_beg zc gc) (by simp) ?_ ?_
  · simpa [begHeaderSize] using hzc
  · simpa [begHeaderSize] using hlimit

theorem framed_datHeader {zc : UInt32} {body : Bytes} (hzc : zc.toNat = datHeaderSize + body.length)
    (hlimit : datHeaderSize + body.length ≤ 2 ^ 30) :
    Framed (datHeader zc ++ body) datHeaderSize .dat := by
  rw [datHeader]
  refine framed_memberHeader (rawTags_zc zc) (by simp) ?_ ?_
  · simpa [datHeaderSize] using hzc
  · simpa [datHeaderSize] using hlimit

theorem framed_idxHeader {zc : UInt32} {entries : List IndexEntry} {body : Bytes}
    (hcount : entries.length ≤ 8190)
    (hzc : zc.toNat = idxHeaderBaseSize + 8 * entries.length + body.length)
    (hlimit : idxHeaderBaseSize + 8 * entries.length + body.length ≤ 2 ^ 30) :
    Framed (idxHeader zc entries ++ body) (idxHeaderBaseSize + 8 * entries.length) .idx := by
  have hextra :
      (subField tagZc (u32Bytes zc) ++ subField tagIx (entries.flatMap entryBytes)).length =
      12 + 8 * entries.length := by
    simp only [List.length_append, length_subField, length_u32Bytes, length_flatMap_entryBytes,
      length_tagZc, length_tagIx]
    omega
  have hheader : idxHeaderBaseSize + 8 * entries.length = 12 + (12 + 8 * entries.length) := by
    rw [idxHeaderBaseSize]
    omega
  rw [hheader, ← hextra] at hzc hlimit ⊢
  exact framed_memberHeader (rawTags_idx zc (by omega)) (by omega) hzc hlimit

theorem framed_begMember {gc : UInt64} {data : Bytes}
    (h : memberSize D level begHeaderSize data ≤ 2 ^ 30) :
    Framed (begMember D level gc data) begHeaderSize .beg := by
  have hbody : begHeaderSize + (deflated D level data ++ trailer D data).length =
      memberSize D level begHeaderSize data := by
    rw [List.length_append, length_trailer, memberSize, Nat.add_assoc]
  rw [begMember, List.append_assoc]
  exact framed_begHeader (by rw [hbody]; exact memberZc_toNat (by omega)) (by rwa [hbody])

theorem framed_datMember {data : Bytes} (h : memberSize D level datHeaderSize data ≤ 2 ^ 30) :
    Framed (datMember D level data) datHeaderSize .dat := by
  have hbody : datHeaderSize + (deflated D level data ++ trailer D data).length =
      memberSize D level datHeaderSize data := by
    rw [List.length_append, length_trailer, memberSize, Nat.add_assoc]
  rw [datMember, List.append_assoc]
  exact framed_datHeader (by rw [hbody]; exact memberZc_toNat (by omega)) (by rwa [hbody])

theorem framed_idxMember {entries : List IndexEntry} (hcount : entries.length ≤ 8190)
    (h : idxSize D level entries.length ≤ 2 ^ 30) :
    Framed (idxMember D level entries) (idxHeaderBaseSize + 8 * entries.length) .idx := by
  have hbody : idxHeaderBaseSize + 8 * entries.length +
      (deflated D level [] ++ List.replicate pgzfTailSize 0).length =
      idxSize D level entries.length := by
    rw [List.length_append, List.length_replicate, idxSize, ← Nat.add_assoc]
  rw [idxMember, List.append_assoc]
  exact framed_idxHeader hcount (by rw [hbody]; exact idxZc_toNat (by omega)) (by rwa [hbody])

/-! ### Reading a framed member -/

/-- A framed member is what its offset leads to. -/
theorem memberAt_framed {file raw : Bytes} {p headerSize : Nat} {ty : BlockType}
    (hframed : Framed raw headerSize ty) (h : raw <+: file.drop p) :
    memberAt file p = .ok (some (raw, headerSize, ty)) := by
  obtain ⟨base, xlen, extra, body, hraw, hbase, hextra, hheader, hty, hzc, hlimit⟩ := hframed
  have hlen : raw.length = 12 + extra.length + body.length := by
    simp only [hraw, List.length_append, hbase, length_u16Bytes, gzipFixedHeaderSize]
    omega
  obtain ⟨tail, htail⟩ := h
  have hroom := congrArg List.length htail
  rw [List.length_append, List.length_drop] at hroom
  -- what stands behind the fixed header, and behind the length of the extra field
  have hat1 : file.drop (p + gzipFixedHeaderSize) = u16Bytes xlen ++ (extra ++ (body ++ tail)) := by
    rw [← List.drop_drop, ← htail, hraw, ← hbase, List.append_assoc, List.drop_left]
    simp only [List.append_assoc]
  have hat2 : file.drop (p + gzipFixedHeaderSize + 2) = extra ++ (body ++ tail) := by
    rw [← List.drop_drop, hat1, ← length_u16Bytes xlen, List.drop_left]
  have hxlen : readU16Le ((file.drop (p + gzipFixedHeaderSize)).take 2) = xlen := by
    rw [hat1, ← length_u16Bytes xlen, List.take_left, readU16Le_self]
  have htags : (file.drop (p + gzipFixedHeaderSize + 2)).take xlen.toNat = extra := by
    rw [hat2, ← hextra, List.take_left]
  have hmember : (file.drop p).take raw.length = raw := by
    rw [← htail, List.take_left]
  have hzcne : (rawTags extra).zc ≠ 0 := by
    intro hzero
    rw [hzero] at hzc
    simp only [UInt32.toNat_zero] at hzc
    omega
  have hfixed : gzipFixedHeaderSize = 10 := rfl
  simp only [memberAt, hxlen, htags, hzc, hmember, hty, hheader, hextra]
  rw [if_neg (by omega), if_neg (by omega), if_neg (by omega), if_neg hzcne, if_neg (by omega),
    if_neg (by omega), if_neg (by omega)]

theorem readOneRawBlock_framed {r : PgzfReader D} {file raw : Bytes} {p headerSize : Nat}
    {ty : BlockType} (hframed : Framed raw headerSize ty) (hin : r.inner = ⟨file, p, []⟩)
    (h : raw <+: file.drop p) :
    readOneRawBlock r = .ok (some ⟨raw, headerSize, ty, r.nextBlockIndex⟩) { r with
      inner := ⟨file, p + raw.length, []⟩
      nextBlockIndex := if ty = .idx then r.nextBlockIndex else r.nextBlockIndex + 1 } := by
  have hread := readOneRawBlock_eq hin
  rwa [memberAt_framed hframed h] at hread

/-! ### Decompressing a data member -/

section Parts

variable (D) (header stream data : Bytes)

theorem trailerOff_member :
    (header ++ stream ++ trailer D data).length - pgzfTailSize = (header ++ stream).length := by
  rw [List.length_append, length_trailer, Nat.add_sub_cancel]

theorem slice_stream :
    slice (header ++ stream ++ trailer D data) header.length (header ++ stream).length = stream :=
  slice_middle _ _ _ rfl (by rw [List.length_append])

theorem readU32Le_crc :
    readU32Le (slice (header ++ stream ++ trailer D data) (header ++ stream).length
    ((header ++ stream).length + 4)) = D.hash data := by
  rw [trailer, ← List.append_assoc, slice_middle _ _ _ rfl (by rw [length_u32Bytes]),
    readU32Le_self]

theorem readU32Le_isize :
    readU32Le (slice (header ++ stream ++ trailer D data) ((header ++ stream).length + 4)
    ((header ++ stream).length + 8)) = UInt32.ofNat data.length := by
  have hfront : (header ++ stream ++ u32Bytes (D.hash data)).length =
      (header ++ stream).length + 4 := by
    rw [List.length_append, length_u32Bytes]
  have hmid := slice_middle (header ++ stream ++ u32Bytes (D.hash data))
    (u32Bytes (UInt32.ofNat data.length)) [] hfront.symm rfl
  rw [hfront, length_u32Bytes, List.append_nil, List.append_assoc _ (u32Bytes _)] at hmid
  rw [trailer, hmid, readU32Le_self]

end Parts

theorem decompressRawBlockWith_eq (header : Bytes) {stream data : Bytes}
    (hinflates : D.Inflates stream data) (hne : data ≠ []) (hlen : data.length < 2 ^ 32) :
    decompressRawBlockWith D (header ++ stream ++ trailer D data) header.length = .ok data := by
  have hpos := List.length_pos_iff.mpr hne
  have hroom : ¬ (header ++ stream ++ trailer D data).length < pgzfTailSize + header.length := by
    simp only [List.length_append, length_trailer]
    omega
  have hisize : (UInt32.ofNat data.length).toNat = data.length := UInt32.toNat_ofNat_of_lt' hlen
  simp only [decompressRawBlockWith, hroom, if_false, trailerOff_member, readU32Le_crc,
    readU32Le_isize, slice_stream, hisize, hinflates.decompressBlock_eq (Nat.le_refl _)]
  rw [if_neg (by omega), if_neg (by simp)]

theorem decompress_begMember {gc : UInt64} {data : Bytes}
    (hinflates : D.Inflates (deflated D level data) data) (hne : data ≠ [])
    (hlen : data.length < 2 ^ 32) :
    decompressRawBlockWith D (begMember D level gc data) begHeaderSize = .ok data := by
  have h := decompressRawBlockWith_eq (begHeader (memberZc D level begHeaderSize data) gc)
    hinflates hne hlen
  rwa [length_begHeader] at h

theorem decompress_datMember {data : Bytes} (hinflates : D.Inflates (deflated D level data) data)
    (hne : data ≠ []) (hlen : data.length < 2 ^ 32) :
    decompressRawBlockWith D (datMember D level data) datHeaderSize = .ok data := by
  have h :=
    decompressRawBlockWith_eq (datHeader (memberZc D level datHeaderSize data)) hinflates hne hlen
  rwa [length_datHeader] at h

end Pgzf
