import Pgzf.TrueIndex

/-!
# What the writer's casts keep

The writer stores sizes in fields of 16 and 32 bits without checking that they fit. A group is
`Representable` when every field of its members says what it should and the reader accepts their
sizes. For a whole file that is the case exactly under a condition on the block size, the group size
and what the compressor makes of the blocks; a group of 8191 blocks is enough to break it.
-/

namespace Pgzf

open PgzfWriter PgzfIndex

variable {D : Deps} {level : Nat}

/-! ### The fields of a member -/

def zcField (member : Bytes) : UInt32 := readU32Le (slice member zcValueOffset (zcValueOffset + 4))

def xlenField (member : Bytes) : UInt16 := readU16Le (slice member 10 12)

/-- `SLEN` of the second sub-field, which in an index member is `IX`. -/
def slenField (member : Bytes) : UInt16 := readU16Le (slice member 22 24)

def isizeField (member : Bytes) : UInt32 := readU32Le (member.drop (member.length - 4))

theorem zcField_memberHeader (zc : UInt32) (more body : Bytes) :
    zcField (memberHeader (subField tagZc (u32Bytes zc) ++ more) ++ body) = zc := by
  have hsplit : memberHeader (subField tagZc (u32Bytes zc) ++ more) ++ body =
      (gzipBase ++ u16Bytes (UInt16.ofNat (subField tagZc (u32Bytes zc) ++ more).length) ++
        (tagZc ++ u16Bytes 4)) ++ u32Bytes zc ++ (more ++ body) := by
    rw [memberHeader]
    simp only [subField, length_u32Bytes, List.append_assoc]
    rfl
  rw [zcField, hsplit, slice_middle _ _ _ (by simp [zcValueOffset, gzipBase])
    (by simp [zcValueOffset, gzipBase]), readU32Le_self]

theorem xlenField_memberHeader (extra body : Bytes) :
    xlenField (memberHeader extra ++ body) = UInt16.ofNat extra.length := by
  have hslice : slice (gzipBase ++ u16Bytes (UInt16.ofNat extra.length) ++ (extra ++ body)) 10 12 =
      u16Bytes (UInt16.ofNat extra.length) :=
    slice_middle gzipBase _ _ rfl (by rw [length_u16Bytes]; rfl)
  rw [xlenField, memberHeader, List.append_assoc, hslice, readU16Le_self]

theorem slenField_memberHeader (zc : UInt32) (value body : Bytes) :
    slenField (memberHeader (subField tagZc (u32Bytes zc) ++ subField tagIx value) ++ body) =
      UInt16.ofNat value.length := by
  have hsplit : memberHeader (subField tagZc (u32Bytes zc) ++ subField tagIx value) ++ body =
      (gzipBase ++
        u16Bytes (UInt16.ofNat (subField tagZc (u32Bytes zc) ++ subField tagIx value).length) ++
        (subField tagZc (u32Bytes zc) ++ tagIx)) ++ u16Bytes (UInt16.ofNat value.length) ++
            (value ++ body) := by
    rw [memberHeader]
    simp only [subField, List.append_assoc]
  rw [slenField, hsplit, slice_middle _ _ _ (by simp [gzipBase]) (by simp [gzipBase]),
    readU16Le_self]

theorem isizeField_trailer (front data : Bytes) :
    isizeField (front ++ trailer D data) = UInt32.ofNat data.length := by
  have hsplit : front ++ trailer D data = (front ++ u32Bytes (D.hash data)) ++
      u32Bytes (UInt32.ofNat data.length) := by
    rw [trailer, List.append_assoc]
  have hlen : (front ++ trailer D data).length - 4 = (front ++ u32Bytes (D.hash data)).length := by
    simp only [hsplit, List.length_append, length_u32Bytes]
    omega
  rw [isizeField, hlen, hsplit, List.drop_left, readU32Le_self]

/-! ### Representable groups -/

/-- No cast has lost anything in a group, and every member is within the limit of the reader. -/
structure Representable (blocks : List Bytes) (group : FileGroup) : Prop where
  zc : ∀ member ∈ group.members, (zcField member).toNat = member.length
  isize : ∀ (j : Nat) (member data : Bytes), group.members[j]? = some member →
    blocks[j]? = some data → (isizeField member).toNat = data.length
  idxZc : (zcField group.idx).toNat = group.idx.length
  xlen : (xlenField group.idx).toNat = 12 + 8 * blocks.length
  slen : (slenField group.idx).toNat = 8 * blocks.length
  size : ∀ member ∈ group.idx :: group.members, member.length ≤ 2 ^ 30

theorem mem_groupMembers {gc : UInt64} {blocks : List Bytes} {member : Bytes}
    (h : member ∈ groupMembers D level gc blocks) :
    ∃ j data, blocks[j]? = some data ∧ member = if j = 0 then begMember D level gc data
      else datMember D level data := by
  cases blocks with
  | nil => exact absurd h List.not_mem_nil
  | cons first rest =>
    rcases List.mem_cons.mp h with rfl | h
    · exact ⟨0, first, rfl, rfl⟩
    · obtain ⟨data, hdata, rfl⟩ := List.mem_map.mp h
      obtain ⟨j, hj⟩ := List.getElem?_of_mem hdata
      exact ⟨j + 1, data, hj, rfl⟩

variable (D level) in
theorem getElem?_groupMembers (gc : UInt64) {blocks : List Bytes} {j : Nat} {data : Bytes}
    (hj : blocks[j]? = some data) :
    (groupMembers D level gc blocks)[j]? =
      some (if j = 0 then begMember D level gc data else datMember D level data) := by
  cases blocks with
  | nil => exact absurd hj (by simp)
  | cons first rest =>
    cases j with
    | zero => rw [groupMembers, List.getElem?_cons_zero, Option.some.inj hj, if_pos rfl]
    | succ j =>
      rw [List.getElem?_cons_succ] at hj
      rw [groupMembers, List.getElem?_cons_succ, List.getElem?_map, hj, Option.map_some,
        if_neg (Nat.succ_ne_zero j)]

theorem length_member (gc : UInt64) (j : Nat) (data : Bytes) :
    (if j = 0 then begMember D level gc data else datMember D level data).length =
      memberSize D level (if j = 0 then begHeaderSize else datHeaderSize) data := by
  split
  · exact length_begMember D level gc data
  · exact length_datMember D level data

theorem zcField_member (gc : UInt64) (j : Nat) (data : Bytes) :
    zcField (if j = 0 then begMember D level gc data else datMember D level data) =
      memberZc D level (if j = 0 then begHeaderSize else datHeaderSize) data := by
  split
  · rw [begMember, begHeader, List.append_assoc, zcField_memberHeader]
  · rw [datMember, datHeader, List.append_assoc]
    have h := zcField_memberHeader (memberZc D level datHeaderSize data) []
      (deflated D level data ++ trailer D data)
    rwa [List.append_nil] at h

theorem isizeField_member (gc : UInt64) (j : Nat) (data : Bytes) :
    isizeField (if j = 0 then begMember D level gc data else datMember D level data) =
      UInt32.ofNat data.length := by
  split
  · rw [begMember, isizeField_trailer]
  · rw [datMember, isizeField_trailer]

theorem xlenField_idxMember (entries : List IndexEntry) :
    xlenField (idxMember D level entries) = UInt16.ofNat (12 + 8 * entries.length) := by
  have hextra : (subField tagZc (u32Bytes (idxZc D level entries.length)) ++
      subField tagIx (entries.flatMap entryBytes)).length = 12 + 8 * entries.length := by
    simp only [List.length_append, length_subField, length_u32Bytes, length_flatMap_entryBytes,
      length_tagZc, length_tagIx]
    omega
  rw [idxMember, idxHeader, List.append_assoc, xlenField_memberHeader, hextra]

theorem slenField_idxMember (entries : List IndexEntry) :
    slenField (idxMember D level entries) = UInt16.ofNat (8 * entries.length) := by
  rw [idxMember, idxHeader, List.append_assoc, slenField_memberHeader, length_flatMap_entryBytes]

theorem zcField_idxMember (entries : List IndexEntry) :
    zcField (idxMember D level entries) = idxZc D level entries.length := by
  rw [idxMember, idxHeader, List.append_assoc, zcField_memberHeader]

/-- A group within the limits of the format is representable. -/
theorem representable_ofBlocks {blocks : List Bytes} (h : GroupFits D level (2 ^ 30) blocks) :
    Representable blocks (FileGroup.ofBlocks D level blocks) := by
  have hcount := h.length_le
  have hidx := h.idx
  have hentries := length_groupEntries D level blocks
  have hsize : ∀ member ∈ groupMembers D level (groupGc D level blocks) blocks,
      member.length ≤ 2 ^ 30 := by
    intro member hmember
    obtain ⟨j, data, hj, rfl⟩ := mem_groupMembers hmember
    have hzero := h.member _ (List.mem_of_getElem? (getElem?_groupMembers D _ 0 hj))
    rwa [length_member] at hzero ⊢
  refine ⟨?_, ?_, ?_, ?_, ?_, ?_⟩
  · intro member hmember
    have hle := hsize member hmember
    obtain ⟨j, data, -, rfl⟩ := mem_groupMembers hmember
    rw [length_member] at hle
    rw [zcField_member, length_member, memberZc_toNat (by omega)]
  · intro j member data hget hj
    have hmember := getElem?_groupMembers D level (groupGc D level blocks) hj
    obtain rfl := Option.some.inj (hmember.symm.trans hget)
    rw [isizeField_member]
    exact UInt32.toNat_ofNat_of_lt' (h.data data (List.mem_of_getElem? hj)).2
  · rw [FileGroup.ofBlocks, zcField_idxMember, hentries, idxZc_toNat (by omega),
      length_idxMember, hentries]
  · rw [FileGroup.ofBlocks, xlenField_idxMember, hentries]
    exact UInt16.toNat_ofNat_of_lt' (by rw [UInt16.size]; omega)
  · rw [FileGroup.ofBlocks, slenField_idxMember, hentries]
    exact UInt16.toNat_ofNat_of_lt' (by rw [UInt16.size]; omega)
  · intro member hmember
    rcases List.mem_cons.mp hmember with rfl | hmember
    · rw [FileGroup.ofBlocks, length_idxMember, hentries]
      exact hidx
    · exact hsize member hmember

/-- A representable group is within the limits of the
format: what a field holds bounds what it was cast from. -/
theorem groupFits_of_representable {blocks : List Bytes} (hne : blocks ≠ [])
    (hblocks : ∀ data ∈ blocks, data ≠ [])
    (h : Representable blocks (FileGroup.ofBlocks D level blocks)) :
    GroupFits D level (2 ^ 30) blocks := by
  have hxlen := h.xlen
  have hxlenLt := (xlenField (FileGroup.ofBlocks D level blocks).idx).toNat_lt
  refine ⟨hne, by omega, ?_, ?_, ?_⟩
  · intro data hdata
    obtain ⟨j, hj⟩ := List.getElem?_of_mem hdata
    have hisize := h.isize j _ data (getElem?_groupMembers _ _ _ hj) hj
    have hlt := (isizeField (if j = 0 then begMember D level (groupGc D level blocks) data
      else datMember D level data)).toNat_lt
    exact ⟨hblocks data hdata, by omega⟩
  · intro member hmember
    obtain ⟨j, data, hj, rfl⟩ := mem_groupMembers hmember
    have hsize :=
      h.size _ (List.mem_cons_of_mem _ (List.mem_of_getElem? (getElem?_groupMembers D _ _ hj)))
    rwa [length_member] at hsize ⊢
  · have hsize := h.size _ List.mem_cons_self
    rwa [FileGroup.ofBlocks, length_idxMember, length_groupEntries] at hsize

/-! ### Representable files -/

/-- The bounds that nothing in the crate checks: on the buffer of a
block, on a block, on the number of blocks in a group, and on a member.
A block or a group is no larger than what the payload fills. -/
structure InBounds (D : Deps) (config : PgzfConfig) (payload : Bytes) : Prop where
  allocated : config.blockSize < 2 ^ 63
  blockLength : min config.blockSize payload.length < 2 ^ 32
  groupLength : min (max 1 config.groupBlocks) (config.blocksOf payload).length ≤ 8190
  member : ∀ (i : Nat) (data : Bytes), (config.blocksOf payload)[i]? = some data →
    (if i % max 1 config.groupBlocks = 0 then begHeaderSize else datHeaderSize) +
      (deflated D config.compressionLevel data).length + pgzfTailSize ≤ 2 ^ 30

variable {config : PgzfConfig} {payload : Bytes}

theorem InBounds.fits (h : InBounds D config payload) (hsize : 1 ≤ config.blockSize) :
    ∀ blocks ∈ config.groupsOf payload, GroupFits D config.compressionLevel (2 ^ 30) blocks := by
  have hgb : 0 < max 1 config.groupBlocks := by omega
  intro blocks hblocks
  have hcount := Nat.le_trans (Chunks.length_le_min_of_mem_chunks hgb hblocks) h.groupLength
  have hidx := length_deflated_le D config.compressionLevel []
  refine ⟨Chunks.ne_nil_of_mem_chunks hgb hblocks, hcount, ?_, ?_, ?_⟩
  · intro data hdata
    have hmem := mem_blocksOf hblocks hdata
    exact ⟨Chunks.ne_nil_of_mem_chunks hsize hmem,
      Nat.lt_of_le_of_lt (Chunks.length_le_min_of_mem_chunks hsize hmem) h.blockLength⟩
  · intro member hmember
    obtain ⟨g, hg⟩ := List.getElem?_of_mem hblocks
    obtain ⟨j, data, hj, rfl⟩ := mem_groupMembers hmember
    obtain ⟨hi, hlt⟩ := Chunks.getElem?_of_chunks hgb hg hj
    have hbound := h.member _ _ hi
    rwa [Nat.mul_comm, Nat.mul_add_mod, Nat.mod_eq_of_lt hlt, ← memberSize,
      ← length_member 0] at hbound
  · rw [upperBound, List.length_nil] at hidx
    rw [idxSize, idxHeaderBaseSize, pgzfTailSize]
    omega

theorem inBounds_of_fits (hsize : 1 ≤ config.blockSize) (hallocated : config.blockSize < 2 ^ 63)
    (h : ∀ blocks ∈ config.groupsOf payload, GroupFits D config.compressionLevel (2 ^ 30) blocks) :
    InBounds D config payload := by
  have hgb : 0 < max 1 config.groupBlocks := by omega
  refine ⟨hallocated, ?_, ?_, ?_⟩
  · by_cases hne : payload = []
    · simp [hne]
    · have hfirst : payload.take config.blockSize ∈ (config.groupsOf payload).flatten := by
        rw [flatten_groupsOf]
        exact Chunks.mem_chunks_take hsize hne
      obtain ⟨blocks, hblocks, hdata⟩ := List.mem_flatten.mp hfirst
      have hlt := ((h blocks hblocks).data _ hdata).2
      rwa [List.length_take] at hlt
  · by_cases hne : config.blocksOf payload = []
    · simp [hne]
    · have hle := (h _ (Chunks.mem_chunks_take hgb hne)).length_le
      rwa [List.length_take] at hle
  · intro i data hi
    have hlt := (List.getElem?_eq_some_iff.mp hi).1
    obtain ⟨blocks, hg, hj, -⟩ := Chunks.getElem?_chunks_div hgb hlt
    have hmember := (h blocks (List.mem_of_getElem? hg)).member _
      (List.mem_of_getElem? (getElem?_groupMembers _ _ 0 (hj.trans hi)))
    rwa [length_member] at hmember

variable (D) in
/-- The writer leaves a file that has lost nothing
to a cast, and `build` lists all of its blocks. -/
def EmitsRepresentable (config : PgzfConfig) (bufs : List Bytes) : Prop :=
  ∃ (w : PgzfWriter) (layout : List FileGroup),
    run D (Sink.atEnd []) config bufs = .ok w.inner w ∧
    w.inner.cursor.bytes = layout.flatMap FileGroup.bytes ∧
    layout = (config.groupsOf bufs.flatten).map (FileGroup.ofBlocks D config.compressionLevel) ∧
    List.Forall₂ Representable (config.groupsOf bufs.flatten) layout ∧
    ∃ index s, build ⟨w.inner.cursor.bytes, 0, []⟩ = .ok index s ∧
      index.blockCount = (config.blocksOf bufs.flatten).length

/-- The writer leaves such a file exactly when the configuration and the payload are in bounds. -/
theorem representable_iff_inBounds {calls : List BuilderCall}
    (hbuilt : PgzfConfig.build calls = .ok config) (hsize : 1 ≤ config.blockSize)
    {bufs : List Bytes} (hcompress : Compresses D config bufs.flatten)
    (haddressable : (fileBytes D config.compressionLevel (config.groupsOf bufs.flatten)).length <
      2 ^ 64) :
    EmitsRepresentable D config bufs ↔ InBounds D config bufs.flatten := by
  constructor
  · intro hemits
    obtain ⟨w, layout, hrun, -, rfl, hrepresentable, -⟩ := hemits
    rw [List.forall₂_map_right_iff, List.forall₂_same] at hrepresentable
    refine inBounds_of_fits hsize (of_onNew_ok hrun) fun blocks hblocks => ?_
    refine groupFits_of_representable (Chunks.ne_nil_of_mem_chunks (by omega) hblocks) ?_
      (hrepresentable blocks hblocks)
    exact fun data hdata => Chunks.ne_nil_of_mem_chunks hsize (mem_blocksOf hblocks hdata)
  · intro hbounds
    have hfits := hbounds.fits hsize
    obtain ⟨w, hrun, hbytes⟩ := run_fileBytes hsize hbounds.allocated
      (PgzfConfig.build_compressionBatchSize_pos hbuilt) hcompress
    obtain ⟨q, hbuild⟩ := build_fileBytes hfits (by omega) stops_nil (by rwa [List.append_nil]) 0
    rw [List.append_nil, ← hbytes] at hbuild
    refine ⟨w, _, hrun, by rw [hbytes, fileBytes_eq_flatMap], rfl, ?_, _, _, hbuild, ?_⟩
    · rw [List.forall₂_map_right_iff, List.forall₂_same]
      exact fun blocks hblocks => representable_ofBlocks (hfits blocks hblocks)
    · rw [← flatten_groupsOf]
      exact length_blockMetas _ 0

theorem Stored.compresses_of_blockSize_lt (hsize : 1 ≤ config.blockSize)
    (hlt : config.blockSize < 2 ^ 16) (payload : Bytes) : Compresses deps config payload := by
  refine (codec_of_length_lt ?_).compresses
  intro data hdata
  rcases List.mem_cons.mp hdata with rfl | hdata
  · decide
  · exact Nat.lt_of_le_of_lt (Chunks.length_le_of_mem_chunks hsize hdata) hlt

def Stored.wideConfig : PgzfConfig :=
  { PgzfConfig.default with blockSize := 1, groupBlocks := 8191 }

def Stored.widePayload : Bytes := List.replicate 8191 0

/-- In a group of 8191 blocks the `XLEN` of the index member should be 65540, and is 4. -/
theorem group_not_representable :
    PgzfConfig.build [.blockSize 1, .groupBlocks 8191] = .ok Stored.wideConfig ∧
    ∃ (w : PgzfWriter) (blocks : List Bytes) (group : FileGroup),
      run Stored.deps (Sink.atEnd []) Stored.wideConfig [Stored.widePayload] = .ok w.inner w ∧
      w.inner.cursor.bytes = group.bytes ∧ blocks.length = 8191 ∧
      group = FileGroup.ofBlocks Stored.deps Stored.wideConfig.compressionLevel blocks ∧
      xlenField group.idx = 4 ∧ ¬ Representable blocks group := by
  have hcompress :=
    Stored.compresses_of_blockSize_lt (show 1 ≤ Stored.wideConfig.blockSize by decide) (by decide)
      [Stored.widePayload].flatten
  obtain ⟨w, hrun, hbytes⟩ := run_fileBytes (by decide) (by decide) (by decide) hcompress
  have hlength : (Stored.wideConfig.blocksOf [Stored.widePayload].flatten).length = 8191 := by
    rw [PgzfConfig.blocksOf, Chunks.length_chunks (by decide), List.flatten_singleton,
      Stored.widePayload, List.length_replicate]
    rfl
  have hgroups : Stored.wideConfig.groupsOf [Stored.widePayload].flatten =
      [Stored.wideConfig.blocksOf [Stored.widePayload].flatten] :=
    Chunks.chunks_of_length_le (by decide) (List.ne_nil_of_length_pos (by omega))
      (by rw [hlength]; decide)
  rw [hgroups, fileBytes_eq_flatMap, List.map_singleton, List.flatMap_singleton] at hbytes
  have hxlen : xlenField (FileGroup.ofBlocks Stored.deps Stored.wideConfig.compressionLevel
      (Stored.wideConfig.blocksOf [Stored.widePayload].flatten)).idx = 4 := by
    rw [FileGroup.ofBlocks, xlenField_idxMember, length_groupEntries, hlength]
    decide
  refine ⟨rfl, w, _, _, hrun, hbytes, hlength, rfl, hxlen, fun h => ?_⟩
  have htrue := h.xlen
  rw [hxlen, hlength] at htrue
  exact absurd htrue (by decide)

/-- Blocks of two bytes in groups of two blocks, at the level the builder begins with. -/
def Stored.builtConfig : PgzfConfig := { PgzfConfig.default with blockSize := 2, groupBlocks := 2 }

theorem representable_iff_inBounds_sample :
    PgzfConfig.build [.blockSize 2, .groupBlocks 2] = .ok Stored.builtConfig ∧
      EmitsRepresentable Stored.deps Stored.builtConfig Stored.sampleBufs := by
  have hbuilt : PgzfConfig.build [.blockSize 2, .groupBlocks 2] = .ok Stored.builtConfig := rfl
  refine ⟨hbuilt, (representable_iff_inBounds hbuilt (by decide)
    (Stored.compresses_of_blockSize_lt (by decide) (by decide) Stored.sampleBufs.flatten)
      (by decide +kernel)).mpr
    ⟨by decide, by decide, by decide, ?_⟩⟩
  intro i data hdata
  have hmember : ∀ x ∈ Stored.builtConfig.blocksOf Stored.sampleBufs.flatten,
      begHeaderSize + (deflated Stored.deps 6 x).length + pgzfTailSize ≤ 2 ^ 30 := by decide +kernel
  have hle := hmember data (List.mem_of_getElem? hdata)
  have hheader : (if i % max 1 Stored.builtConfig.groupBlocks = 0 then begHeaderSize
      else datHeaderSize) ≤ begHeaderSize := by split <;> decide
  exact Nat.le_trans (Nat.add_le_add_right (Nat.add_le_add_right hheader _) _) hle

end Pgzf
