import Pgzf.Emit
import Pgzf.Hostile

/-!
# Three builders, three parsers

A header is read in three ways: by `parse_extra_field`, by the tag loop of `read_one_raw_block`, and
by `PgzfIndex::build` at fixed offsets. In what the three builders write they find the same.
-/

namespace Pgzf

open PgzfIndex PgzfReader Program

def xlenOf (header : Bytes) : Nat := (readU16Le (slice header 10 12)).toNat

def rawExtraOf (header : Bytes) : Bytes :=
  slice header (gzipFixedHeaderSize + 2) (gzipFixedHeaderSize + 2 + xlenOf header)

def entriesOf (data : Bytes) (numEntries : Nat) : List IndexEntry :=
  (List.range numEntries).map fun i => entryAt data (i * 8)

structure ReadsBack (header : Bytes) (fields : ExtraField) (ty : BlockType) : Prop where
  parsed : parseExtraField (header.drop gzipFixedHeaderSize) true = .ok fields
  parsedType : determineBlockType fields.gc fields.ix = ty
  rawZc : (rawTags (rawExtraOf header)).zc = fields.zc
  rawType : (rawTags (rawExtraOf header)).blockType = ty
  fixedZc : readU32Le (slice header zcValueOffset (zcValueOffset + 4)) = fields.zc

/-- What `build` reads behind the fixed part of an index header is its table. -/
structure ReadsTable (header : Bytes) (entries : List IndexEntry) : Prop where
  xlen : 8 + 4 ≤ xlenOf header
  length : (slice header idxHeaderBaseSize (idxHeaderBaseSize + (xlenOf header - (8 + 4)))).length =
    xlenOf header - (8 + 4)
  entries :
    entriesOf (slice header idxHeaderBaseSize (idxHeaderBaseSize + (xlenOf header - (8 + 4))))
    ((xlenOf header - (8 + 4)) / 8) = entries

/-! ### Any header with a `ZC` in front -/

section Member

variable {zc : UInt32} {more : Bytes}

theorem length_zc_append : (subField tagZc (u32Bytes zc) ++ more).length = 8 + more.length := by
  rw [List.length_append, length_subField, length_u32Bytes]
  rfl

theorem xlenOf_memberHeader {extra : Bytes} (hextra : extra.length < 2 ^ 16) :
    xlenOf (memberHeader extra) = extra.length := by
  have hslice : slice (memberHeader extra) 10 12 = u16Bytes (UInt16.ofNat extra.length) :=
    slice_middle gzipBase _ _ rfl (by rw [length_u16Bytes]; rfl)
  rw [xlenOf, hslice, readU16Le_self]
  exact UInt16.toNat_ofNat_of_lt' hextra

theorem rawExtraOf_memberHeader {extra : Bytes} (hextra : extra.length < 2 ^ 16) :
    rawExtraOf (memberHeader extra) = extra := by
  have hfront : (gzipBase ++ u16Bytes (UInt16.ofNat extra.length)).length =
      gzipFixedHeaderSize + 2 := by
    rw [List.length_append, length_u16Bytes]
    rfl
  have hslice := slice_middle (gzipBase ++ u16Bytes (UInt16.ofNat extra.length)) extra
    [] hfront.symm (by rw [hfront])
  rw [List.append_nil] at hslice
  rw [rawExtraOf, xlenOf_memberHeader hextra]
  exact hslice

theorem fixedZc_memberHeader :
    readU32Le (slice (memberHeader (subField tagZc (u32Bytes zc) ++ more)) zcValueOffset
      (zcValueOffset + 4)) = zc := by
  have hsplit : memberHeader (subField tagZc (u32Bytes zc) ++ more) =
      gzipBase ++ u16Bytes (UInt16.ofNat (8 + more.length)) ++ tagZc ++ u16Bytes 4 ++ u32Bytes zc ++
          more := by
    rw [memberHeader, length_zc_append, subField, length_u32Bytes]
    simp only [List.append_assoc]
    rfl
  have hslice : slice (gzipBase ++ u16Bytes (UInt16.ofNat (8 + more.length)) ++ tagZc ++
      u16Bytes 4 ++ u32Bytes zc ++ more) zcValueOffset (zcValueOffset + 4) = u32Bytes zc :=
    slice_middle _ _ _ (by simp [zcValueOffset, gzipBase]) (by simp [zcValueOffset, gzipBase])
  rw [hsplit, hslice, readU32Le_self]

/-- What the two tag loops make of the extra field is what is found in the header. -/
theorem readsBack_memberHeader {fields : ExtraField} {tags : RawTags} {ty : BlockType}
    (hmore : more.length + 8 < 2 ^ 16)
    (hfields : tlvLoop ExtraField.add (subField tagZc (u32Bytes zc) ++ more)
      (subField tagZc (u32Bytes zc) ++ more).length 0 ⟨0, none, none⟩ = fields)
    (htags : rawTags (subField tagZc (u32Bytes zc) ++ more) = tags) (hzc : fields.zc = zc)
    (hraw : tags.zc = zc) (hfieldsTy : determineBlockType fields.gc fields.ix = ty)
    (htagsTy : tags.blockType = ty) :
    ReadsBack (memberHeader (subField tagZc (u32Bytes zc) ++ more)) fields ty := by
  have hextra : (subField tagZc (u32Bytes zc) ++ more).length < 2 ^ 16 := by
    rw [length_zc_append]
    omega
  have hdrop : (memberHeader (subField tagZc (u32Bytes zc) ++ more)).drop gzipFixedHeaderSize =
      u16Bytes (UInt16.ofNat (subField tagZc (u32Bytes zc) ++ more).length) ++
          (subField tagZc (u32Bytes zc) ++ more) ++ [] := by
    rw [memberHeader, List.append_assoc, List.append_nil]
    exact List.drop_left' rfl
  constructor
  · rw [hdrop, parseExtraField_eq hextra, hfields]
  · exact hfieldsTy
  · rw [rawExtraOf_memberHeader hextra, htags, hraw, hzc]
  · rw [rawExtraOf_memberHeader hextra, htags, htagsTy]
  · rw [fixedZc_memberHeader, hzc]

end Member

/-! ### The three headers -/

theorem writeU64Le_begHeader (zc : UInt32) (gc : UInt64) :
    writeU64Le (begHeader zc 0) gcValueOffset gc = begHeader zc gc := by
  obtain ⟨front, hfront, hgc⟩ := begHeader_gc zc
  have hsplit : ∀ gc, begHeader zc gc = front ++ u64Bytes gc ++ [] := by
    intro gc
    rw [hgc, List.append_nil]
  rw [writeU64Le, hsplit 0, hsplit gc, ← hfront]
  exact overwrite_window _ _ _ _ (by rw [length_u64Bytes, length_u64Bytes])

theorem readsBack_beg (zc : UInt32) (gc : UInt64) :
    ReadsBack (begHeader zc gc) ⟨zc, some gc, none⟩ .beg := by
  have hfields := @extraField_zc_cons zc tagGc (u64Bytes gc) rfl (by simp)
  rw [extraField_beg] at hfields
  exact readsBack_memberHeader (by simp) hfields (rawTags_beg zc gc) rfl rfl rfl rfl

theorem readsBack_dat (zc : UInt32) : ReadsBack (datHeader zc) ⟨zc, none, none⟩ .dat := by
  have hempty : datHeader zc = memberHeader (subField tagZc (u32Bytes zc) ++ []) := by
    rw [List.append_nil]
    rfl
  have hfields := extraField_zc zc
  have htags := rawTags_zc zc
  rw [← List.append_nil (subField tagZc (u32Bytes zc))] at hfields htags
  rw [hempty]
  exact readsBack_memberHeader (by simp) hfields htags rfl rfl rfl rfl

theorem readsBack_idx (zc : UInt32) {entries : List IndexEntry} (hne : entries ≠ [])
    (hcount : entries.length ≤ 8190) :
    ReadsBack (idxHeader zc entries) ⟨zc, none, some entries⟩ .idx := by
  have htable : (entries.flatMap entryBytes).length < 2 ^ 16 := by
    rw [length_flatMap_entryBytes]
    omega
  have hfields := @extraField_zc_cons zc tagIx _ rfl htable
  rw [extraField_idx zc hne] at hfields
  have hmore : (subField tagIx (entries.flatMap entryBytes)).length + 8 < 2 ^ 16 := by
    rw [length_subField, length_flatMap_entryBytes, length_tagIx]
    omega
  exact readsBack_memberHeader hmore hfields (rawTags_idx zc (by omega)) rfl rfl rfl rfl

theorem readsTable_idx (zc : UInt32) {entries : List IndexEntry} (hcount : entries.length ≤ 8190) :
    ReadsTable (idxHeader zc entries) entries := by
  have hextra :
      (subField tagZc (u32Bytes zc) ++ subField tagIx (entries.flatMap entryBytes)).length =
      8 + 4 + (entries.flatMap entryBytes).length := by
    rw [length_zc_append, length_subField, length_tagIx]
    omega
  have hxlen : xlenOf (idxHeader zc entries) = 8 + 4 + (entries.flatMap entryBytes).length := by
    rw [← hextra]
    apply xlenOf_memberHeader
    rw [hextra, length_flatMap_entryBytes]
    omega
  obtain ⟨fixed, hheader, hfixed, -⟩ := idxHeader_eq zc entries
  have hslice : slice (idxHeader zc entries) idxHeaderBaseSize
      (idxHeaderBaseSize + (entries.flatMap entryBytes).length) = entries.flatMap entryBytes := by
    have hmiddle := slice_middle fixed (entries.flatMap entryBytes) [] hfixed.symm (by rw [hfixed])
    rwa [List.append_nil, ← hheader] at hmiddle
  constructor
  · rw [hxlen]
    exact Nat.le_add_right _ _
  · rw [hxlen, Nat.add_sub_cancel_left, hslice]
  · rw [hxlen, Nat.add_sub_cancel_left, hslice]
    exact parseEntries_flatMap entries

theorem entriesOf_flatMap (entries : List IndexEntry) :
    entriesOf (entries.flatMap entryBytes) entries.length = entries := by
  have hparse := parseEntries_flatMap entries
  rwa [parseEntries, count_flatMap_entryBytes] at hparse

/-- Every header the builders write is read back by all three parsers. -/
theorem header_codec (zc : UInt32) (gc : UInt64) {entries : List IndexEntry}
    (hne : 1 ≤ entries.length) (hcount : entries.length ≤ 8190) :
    ReadsBack (writeU64Le (buildBegHeader zc) gcValueOffset gc) ⟨zc, some gc, none⟩ .beg ∧
      readU64Le (slice (writeU64Le (buildBegHeader zc) gcValueOffset gc) gcValueOffset
        (gcValueOffset + 8)) = gc ∧
      ReadsBack (buildDatHeader zc) ⟨zc, none, none⟩ .dat ∧
      ReadsBack (buildIdxHeader zc entries) ⟨zc, none, some entries⟩ .idx ∧
        ReadsTable (buildIdxHeader zc entries) entries ∧
      ∀ file rest p q, file.drop p = buildIdxHeader zc entries ++ rest → ∃ ixData numEntries s,
        readIdx p ⟨file, q, []⟩ = .ok (ixData, numEntries, zc) s ∧
          entriesOf ixData numEntries = entries := by
  rw [buildBegHeader_eq, buildDatHeader_eq, buildIdxHeader_eq, writeU64Le_begHeader,
    (begHeader_eq zc gc).2, readU64Le_self]
  have hnil : entries ≠ [] := List.length_pos_iff.mp hne
  exact ⟨readsBack_beg zc gc, rfl, readsBack_dat zc, readsBack_idx zc hnil hcount,
    readsTable_idx zc hcount,
    fun _ _ _ _ hfile => ⟨_, _, _, readIdx_idxHeader hfile hcount, entriesOf_flatMap entries⟩⟩

theorem header_codec_sample :
    ReadsBack (buildIdxHeader 500 [⟨100, 1000⟩, ⟨200, 2000⟩]) ⟨500, none,
      some [⟨100, 1000⟩, ⟨200, 2000⟩]⟩ .idx :=
  (@header_codec 500 7 [⟨100, 1000⟩, ⟨200, 2000⟩] (by decide) (by decide)).2.2.2.1

end Pgzf
