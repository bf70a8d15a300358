import Pgzf.Limits

/-!
# The layout contract

What the specification promises of the bytes a writer appends, in terms of what the crate's own
parser finds in them: groups of the shape BEG DAT* IDX, every `ZC` the length of its member, the
`GC` of a group the distance from its BEG to its IDX, and an index table with the sizes of the
group's members and blocks.
-/

namespace Pgzf

open PgzfWriter

variable (D : Deps) (level : Nat)

def memberFields (member : Bytes) : Except PgzfError ExtraField :=
  parseExtraField (member.drop gzipFixedHeaderSize) true

structure IsMember (member : Bytes) (fields : ExtraField) : Prop where
  header : validateGzipHeader member = .ok (gzipFlgFextra, pgzfXflMarker)
  fields_eq : memberFields member = .ok fields
  zc : fields.zc.toNat = member.length

/-- A member holds a block: a header, what the compressor
makes of the block, and its CRC-32 and length. -/
def HoldsBlock (member data : Bytes) : Prop :=
  ∃ header stream, compressBlock D level data = .ok stream ∧
    member = header ++ stream ++ (u32Bytes (D.hash data) ++ u32Bytes (UInt32.ofNat data.length)) ∧
    (UInt32.ofNat data.length).toNat = data.length

/-- The members of a group as they stand in a file:
data members, and an index member behind them. -/
structure FileGroup where
  members : List Bytes
  idx : Bytes

def FileGroup.bytes (group : FileGroup) : Bytes := group.members.flatten ++ group.idx

/-- The specified shape of a group with the given blocks: one data member for each of them, the
first a BEG and the others DAT, and the index member. -/
structure GroupShape (blocks : List Bytes) (group : FileGroup) : Prop where
  length_eq : group.members.length = blocks.length
  ne_nil : group.members ≠ []
  data : ∀ j member data, group.members[j]? = some member → blocks[j]? = some data →
    ∃ fields, IsMember member fields ∧ HoldsBlock D level member data ∧
      determineBlockType fields.gc fields.ix = (if j = 0 then .beg else .dat) ∧
      (j = 0 → ∃ gc, fields.gc = some gc ∧ gc.toNat = group.members.flatten.length)
  idx : ∃ fields entries front, IsMember group.idx fields ∧
    determineBlockType fields.gc fields.ix = .idx ∧ fields.ix = some entries ∧
    entries.map (fun e => (e.compressedSize.toNat, e.uncompressedSize.toNat)) =
      (group.members.map List.length).zip (blocks.map List.length) ∧
    group.idx = front ++ List.replicate pgzfTailSize 0

def FileGroup.ofBlocks (blocks : List Bytes) : FileGroup :=
  ⟨groupMembers D level (groupGc D level blocks) blocks,
    idxMember D level (groupEntries D level blocks)⟩

variable {D level}

/-! ### Members -/

theorem isMember_memberHeader {extra body : Bytes} {fields : ExtraField}
    (hextra : extra.length < 2 ^ 16)
    (hfields : tlvLoop ExtraField.add extra extra.length 0 ⟨0, none, none⟩ = fields)
    (hzc : fields.zc.toNat = (memberHeader extra ++ body).length) :
    IsMember (memberHeader extra ++ body) fields := by
  refine ⟨?_, ?_, hzc⟩
  · rw [memberHeader, List.append_assoc, List.append_assoc]
    exact validateGzipHeader_base _
  · have hdrop : (memberHeader extra ++ body).drop gzipFixedHeaderSize =
        u16Bytes (UInt16.ofNat extra.length) ++ extra ++ body := by
      simp only [memberHeader, List.append_assoc]
      exact List.drop_left' rfl
    rw [memberFields, hdrop, parseExtraField_eq hextra, hfields]

theorem isMember_begMember {gc : UInt64} {data : Bytes}
    (h : memberSize D level begHeaderSize data < 2 ^ 32) :
    IsMember (begMember D level gc data) ⟨memberZc D level begHeaderSize data, some gc, none⟩ := by
  have hzc : (memberZc D level begHeaderSize data).toNat = (begMember D level gc data).length := by
    rw [memberZc_toNat h, length_begMember]
  rw [begMember, begHeader, List.append_assoc] at hzc ⊢
  refine isMember_memberHeader (by simp) ?_ hzc
  rw [extraField_zc_cons _ rfl (by simp), extraField_beg]

theorem isMember_datMember {data : Bytes} (h : memberSize D level datHeaderSize data < 2 ^ 32) :
    IsMember (datMember D level data) ⟨memberZc D level datHeaderSize data, none, none⟩ := by
  have hzc : (memberZc D level datHeaderSize data).toNat = (datMember D level data).length := by
    rw [memberZc_toNat h, length_datMember]
  rw [datMember, datHeader, List.append_assoc] at hzc ⊢
  exact isMember_memberHeader (by simp) (extraField_zc _) hzc

theorem isMember_idxMember {entries : List IndexEntry} (hne : entries ≠ [])
    (hcount : entries.length ≤ 8190) (h : idxSize D level entries.length < 2 ^ 32) :
    IsMember (idxMember D level entries) ⟨idxZc D level entries.length, none, some entries⟩ := by
  have hzc : (idxZc D level entries.length).toNat = (idxMember D level entries).length := by
    rw [idxZc_toNat h, length_idxMember]
  have htable : (entries.flatMap entryBytes).length < 2 ^ 16 := by
    rw [length_flatMap_entryBytes]
    omega
  rw [idxMember, idxHeader, List.append_assoc] at hzc ⊢
  refine isMember_memberHeader ?_ ?_ hzc
  · simp only [List.length_append, length_subField, length_u32Bytes, length_flatMap_entryBytes,
      length_tagZc, length_tagIx]
    omega
  · rw [extraField_zc_cons _ rfl htable, extraField_idx _ hne]

theorem holdsBlock_trailer {header data : Bytes}
    (hcompress : ∃ out, compressBlock D level data = .ok out) (hlen : data.length < 2 ^ 32) :
    HoldsBlock D level (header ++ deflated D level data ++ trailer D data) data := by
  obtain ⟨out, hout⟩ := hcompress
  exact ⟨header, deflated D level data, compressBlock_eq_deflated D hout, rfl,
    UInt32.toNat_ofNat_of_lt' hlen⟩

/-! ### Groups -/

theorem groupShape_ofBlocks {limit : Nat} (hlimit : limit < 2 ^ 32) {blocks : List Bytes}
    (h : GroupFits D level limit blocks)
    (hcompress : ∀ data ∈ blocks, ∃ out, compressBlock D level data = .ok out) :
    GroupShape D level blocks (FileGroup.ofBlocks D level blocks) := by
  have hmember : ∀ data ∈ blocks.tail, memberSize D level datHeaderSize data < 2 ^ 32 := by
    intro data hdata
    obtain ⟨first, rest, rfl⟩ := List.exists_cons_of_ne_nil h.ne_nil
    have hle :=
      h.member (datMember D level data) (List.mem_cons_of_mem _ (List.mem_map_of_mem hdata))
    rw [length_datMember] at hle
    omega
  have hgc : (groupGc D level blocks).toNat =
      (groupMembers D level (groupGc D level blocks) blocks).flatten.length := by
    rw [groupGc_toNat h hlimit, ← RunningSum.sum_map_length, ← RunningSum.sum_map_length,
      map_length_groupMembers D level (groupGc D level blocks) 0]
  refine ⟨length_groupMembers D level _ blocks, ?_, ?_, ?_⟩
  · intro hnil
    have hlen := length_groupMembers D level (groupGc D level blocks) blocks
    rw [show groupMembers D level (groupGc D level blocks) blocks = [] from hnil] at hlen
    exact h.ne_nil (List.length_eq_zero_iff.mp hlen.symm)
  · intro j member data hget hblock
    have hdata := List.mem_of_getElem? hblock
    have hlen := (h.data data hdata).2
    cases blocks with
    | nil => exact absurd hblock (by simp)
    | cons first rest =>
      cases j with
      | zero =>
        rw [List.getElem?_cons_zero, Option.some.injEq] at hblock
        obtain rfl := hblock
        rw [FileGroup.ofBlocks, groupMembers, List.getElem?_cons_zero, Option.some.injEq] at hget
        obtain rfl := hget
        have hsize := h.member _ List.mem_cons_self
        rw [length_begMember] at hsize
        exact ⟨_, isMember_begMember (by omega), holdsBlock_trailer (hcompress _ hdata) hlen, rfl,
          fun _ => ⟨_, rfl, hgc⟩⟩
      | succ j =>
        rw [List.getElem?_cons_succ] at hblock
        rw [FileGroup.ofBlocks, groupMembers, List.getElem?_cons_succ, List.getElem?_map, hblock,
          Option.map_some, Option.some.injEq] at hget
        obtain rfl := hget
        exact ⟨_, isMember_datMember (hmember _ (List.mem_of_getElem? hblock)),
          holdsBlock_trailer (hcompress _ hdata) hlen,
          rfl, fun hzero => absurd hzero (Nat.succ_ne_zero j)⟩
  · have hne : groupEntries D level blocks ≠ [] := by
      intro hnil
      have hlen := length_groupEntries D level blocks
      rw [hnil, List.length_nil] at hlen
      exact h.ne_nil (List.length_eq_zero_iff.mp hlen.symm)
    have hidx := h.idx
    have hcount := h.length_le
    rw [← length_groupEntries D level blocks] at hidx hcount
    refine ⟨_, groupEntries D level blocks, _, isMember_idxMember hne hcount (by omega), rfl,
      rfl, ?_, rfl⟩
    rw [FileGroup.ofBlocks, map_length_groupMembers D level _ 0, ← compressedSizes_eq h hlimit,
      ← uncompressedSizes_eq h, List.zip_map']

/-! ### Files -/

theorem fileBytes_eq_flatMap (groups : List (List Bytes)) :
    fileBytes D level groups = (groups.map (FileGroup.ofBlocks D level)).flatMap
      FileGroup.bytes := by
  rw [fileBytes, List.flatMap_map]
  rfl

theorem length_flatMap_bytes (layout : List FileGroup) :
    (layout.flatMap FileGroup.bytes).length =
      (layout.map fun group => (group.members.map List.length).sum + group.idx.length).sum := by
  rw [List.length_flatMap]
  refine congrArg List.sum (List.map_congr_left fun group _ => ?_)
  rw [FileGroup.bytes, List.length_append, RunningSum.sum_map_length]

variable {config : PgzfConfig} {bufs : List Bytes}

/-- Block `j` is the payload from `j` times the block
size up to the next multiple, or to the end. -/
theorem getElem?_blocksOf (hsize : 1 ≤ config.blockSize) (payload : Bytes) (j : Nat) :
    (config.blocksOf payload)[j]? = if j * config.blockSize < payload.length then
      some (slice payload (j * config.blockSize) (min ((j + 1) * config.blockSize) payload.length))
        else none := by
  have hlt := Chunks.lt_length_chunks hsize payload j
  split
  · rename_i hj
    have htake : payload.take (min ((j + 1) * config.blockSize) payload.length) =
        payload.take (j * config.blockSize + config.blockSize) := by
      rw [Nat.succ_mul, ← List.take_take, List.take_length]
    rw [PgzfConfig.blocksOf, Chunks.getElem?_chunks hsize payload j (hlt.mpr hj), slice, htake,
      List.drop_take, Nat.add_sub_cancel_left]
  · rename_i hj
    exact List.getElem?_eq_none (Nat.not_lt.mp fun h => hj (hlt.mp h))

/-- The bytes a writer appends are groups of the specified shape; the blocks are the payload cut at
multiples of the block size, and every group but the last is full. -/
theorem writer_layout (hlimits : WithinLimits D (2 ^ 32 - 1) config bufs.flatten)
    (hcompress : Compresses D config bufs.flatten) (before : Bytes) :
    ∃ (w : PgzfWriter) (groups : List (List Bytes)) (layout : List FileGroup),
      run D (Sink.atEnd before) config bufs = .ok w.inner w ∧
      w.inner.cursor.bytes = before ++ layout.flatMap FileGroup.bytes ∧
      (layout.map fun group => (group.members.map List.length).sum + group.idx.length).sum =
        w.inner.cursor.bytes.length - before.length ∧
      List.Forall₂ (GroupShape D config.compressionLevel) groups layout ∧
      (∀ j, groups.flatten[j]? = if j * config.blockSize < bufs.flatten.length then
        some (slice bufs.flatten (j * config.blockSize)
          (min ((j + 1) * config.blockSize) bufs.flatten.length)) else none) ∧
      ∀ g blocks, groups[g]? = some blocks → g + 1 < groups.length →
        blocks.length = max 1 config.groupBlocks := by
  obtain ⟨w, hrun, hrep⟩ :=
    run_represents hlimits.blockSize_pos hlimits.allocated hlimits.batchSize_pos hcompress before
  have hbytes : w.inner.cursor.bytes =
      before ++ fileBytes D config.compressionLevel
        (config.groupsOf bufs.flatten) := by rw [hrep.cursor]
  rw [fileBytes_eq_flatMap] at hbytes
  refine ⟨w, config.groupsOf bufs.flatten, _, hrun, hbytes, ?_, ?_, ?_, ?_⟩
  · rw [hbytes, List.length_append, Nat.add_sub_cancel_left, length_flatMap_bytes]
  · rw [List.forall₂_map_right_iff, List.forall₂_same]
    intro blocks hblocks
    apply groupShape_ofBlocks (by omega) (hlimits.fits blocks hblocks)
    intro data hdata
    exact hcompress data (List.mem_cons_of_mem _ (mem_blocksOf hblocks hdata))
  · intro j
    rw [flatten_groupsOf, getElem?_blocksOf hlimits.blockSize_pos]
  · intro g blocks hget hlast
    obtain ⟨hlt, rfl⟩ := List.getElem?_eq_some_iff.mp hget
    exact Chunks.length_getElem_chunks (by omega) _ g hlast

theorem Stored.sample_withinLimits_u32 :
    WithinLimits deps (2 ^ 32 - 1) sampleConfig sampleBufs.flatten :=
  sample_withinLimits.mono (by decide)

theorem writer_layout_sample :
    ∃ (w : PgzfWriter) (groups : List (List Bytes)) (layout : List FileGroup),
      run Stored.deps (Sink.atEnd [7]) Stored.sampleConfig Stored.sampleBufs = .ok w.inner w ∧
      w.inner.cursor.bytes = [7] ++ layout.flatMap FileGroup.bytes ∧
      List.Forall₂ (GroupShape Stored.deps 0) groups layout := by
  obtain ⟨w, groups, layout, hrun, hbytes, -, hshape, -⟩ :=
    writer_layout Stored.sample_withinLimits_u32 Stored.sample_codec.compresses [7]
  exact ⟨w, groups, layout, hrun, hbytes, hshape⟩

end Pgzf
