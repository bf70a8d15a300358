import Pgzf.Shape

/-!
# The scanned index is the true layout

The offsets and the block descriptions that `build` accumulates, read at a block's number: they name
the group of the block, its place in the group, its sizes, and where its member stands in the file.
-/

namespace Pgzf

open PgzfWriter PgzfIndex

variable {D : Deps} {level : Nat}

/-! ### Block by block -/

theorem length_flatten_groupMembers (blocks : List Bytes) (k : Nat) :
    (((groupMembers D level 0 blocks).map List.length).take k).sum =
      ((groupMembers D level (groupGc D level blocks) blocks).take k).flatten.length := by
  rw [map_length_groupMembers D level 0 (groupGc D level blocks), ← List.map_take,
    RunningSum.sum_map_length]

variable (D level) in
/-- The offset listed for a block: behind the groups
before its own, and the members before it in the group. -/
theorem getElem?_memberOffsets {groups : List (List Bytes)} {g k : Nat} {blocks : List Bytes}
    (hg : groups[g]? = some blocks) (hk : k < blocks.length) (start : Nat) :
    (memberOffsets D level start groups)[(groups.take g).flatten.length + k]? =
      some (start + (fileBytes D level (groups.take g)).length +
        ((groupMembers D level (groupGc D level blocks) blocks).take k).flatten.length) := by
  induction groups generalizing start g with
  | nil => exact absurd hg (by simp)
  | cons first groups ih =>
    cases g with
    | zero =>
      rw [List.getElem?_cons_zero, Option.some.injEq] at hg
      subst hg
      have hlen : k < ((groupMembers D level 0 first).map List.length).length := by
        rwa [List.length_map, length_groupMembers]
      rw [List.take_zero, List.flatten_nil, List.length_nil, Nat.zero_add, memberOffsets,
        List.getElem?_append_left (by rwa [RunningSum.length_starts]),
          RunningSum.getElem?_starts start hlen,
        length_flatten_groupMembers, fileBytes, List.flatMap_nil, List.length_nil, Nat.add_zero]
    | succ g =>
      rw [List.getElem?_cons_succ] at hg
      have hfirst : (RunningSum.starts start
          ((groupMembers D level 0 first).map List.length)).length = first.length := by
        rw [RunningSum.length_starts, List.length_map, length_groupMembers]
      rw [List.take_succ_cons, List.flatten_cons, List.length_append, memberOffsets,
        List.getElem?_append_right (by omega), hfirst, fileBytes_cons, List.length_append,
        show first.length + (groups.take g).flatten.length + k - first.length =
          (groups.take g).flatten.length + k by omega,
        ih hg, Nat.add_assoc start]

theorem getElem?_blockMetas {groups : List (List Bytes)} {g k : Nat} {blocks : List Bytes}
    {entry : IndexEntry} (hg : groups[g]? = some blocks)
    (hk : (groupEntries D level blocks)[k]? = some entry) (base : Nat) :
    (blockMetas D level base groups)[(groups.take g).flatten.length + k]? =
      some ⟨UInt32.ofNat (base + g), UInt32.ofNat k, entry.compressedSize,
        entry.uncompressedSize⟩ := by
  induction groups generalizing base g with
  | nil => exact absurd hg (by simp)
  | cons first groups ih =>
    cases g with
    | zero =>
      rw [List.getElem?_cons_zero, Option.some.injEq] at hg
      subst hg
      have hlt := (List.getElem?_eq_some_iff.mp hk).1
      rw [List.take_zero, List.flatten_nil, List.length_nil, Nat.zero_add, blockMetas,
        List.getElem?_append_left (by rwa [List.length_mapIdx]), List.getElem?_mapIdx, hk,
          Option.map_some, Nat.add_zero]
    | succ g =>
      rw [List.getElem?_cons_succ] at hg
      have hfirst := length_groupEntries D level first
      rw [List.take_succ_cons, List.flatten_cons, List.length_append, blockMetas,
        List.getElem?_append_right (by rw [List.length_mapIdx]; omega), List.length_mapIdx, hfirst,
        show first.length + (groups.take g).flatten.length + k - first.length =
          (groups.take g).flatten.length + k by omega,
        ih hg, Nat.add_assoc, Nat.add_comm 1]

theorem getElem?_groupEntries {limit : Nat} (hlimit : limit < 2 ^ 32) {blocks : List Bytes}
    (h : GroupFits D level limit blocks) {k : Nat} {data : Bytes} (hk : blocks[k]? = some data) :
    ∃ entry member, (groupEntries D level blocks)[k]? = some entry ∧
      (groupMembers D level (groupGc D level blocks) blocks)[k]? = some member ∧
      entry.compressedSize.toNat = member.length ∧ entry.uncompressedSize.toNat = data.length := by
  have hlt := (List.getElem?_eq_some_iff.mp hk).1
  have hcompressed := compressedSizes_eq h hlimit
  rw [map_length_groupMembers D level 0 (groupGc D level blocks)] at hcompressed
  have hentry : k < (groupEntries D level blocks).length := by rwa [length_groupEntries]
  have hmember : k < (groupMembers D level (groupGc D level blocks) blocks).length := by
    rwa [length_groupMembers]
  have hsize := congrArg (fun sizes => sizes[k]?) hcompressed
  have hlength := congrArg (fun sizes => sizes[k]?) (uncompressedSizes_eq h)
  simp only [List.getElem?_map, List.getElem?_eq_getElem hentry, List.getElem?_eq_getElem hmember,
    hk, Option.map_some, Option.some.injEq] at hsize hlength
  exact ⟨_, _, List.getElem?_eq_getElem hentry, List.getElem?_eq_getElem hmember, hsize, hlength⟩

/-! ### The index of a written file -/

theorem totalUncompressed_indexOf (groups : List (List Bytes)) :
    (indexOf D level groups).totalUncompressed = groups.flatten.flatten.length := by
  rw [PgzfIndex.totalUncompressed, indexOf, List.getLast?_concat, Option.getD_some]

theorem totalCompressed_indexOf (groups : List (List Bytes)) :
    (indexOf D level groups).totalCompressed = (fileBytes D level groups).length := by
  rw [PgzfIndex.totalCompressed, indexOf, List.getLast?_concat, Option.getD_some]

theorem getElem?_uncompressedOffsets_indexOf {groups : List (List Bytes)} {i : Nat}
    (hi : i < groups.flatten.length) :
    (indexOf D level groups).uncompressedOffsets[i]? =
      some (groups.flatten.take i).flatten.length := by
  have hstarts := starts_blocks groups.flatten
  rw [indexOf]
  simp only [hstarts]
  rw [List.getElem?_map, List.getElem?_range (by omega), Option.map_some, BlockCursor.offset]

/-- What the index of some groups lists for block `k` of group `g`. -/
structure Listed (D : Deps) (level : Nat) (groups : List (List Bytes)) (g k : Nat)
    (group : FileGroup) (member data : Bytes) (entry : BlockMeta) : Prop where
  group_eq : (groups.map (FileGroup.ofBlocks D level))[g]? = some group
  member_eq : group.members[k]? = some member
  offset : (indexOf D level groups).compressedOffset ((groups.take g).flatten.length + k) =
    some ((((groups.map (FileGroup.ofBlocks D level)).take g).flatMap FileGroup.bytes).length +
      (group.members.take k).flatten.length)
  entry_eq : (indexOf D level groups).blockMeta ((groups.take g).flatten.length + k) = some entry
  groupIndex : entry.groupIndex = UInt32.ofNat g
  blockInGroup : entry.blockInGroup = UInt32.ofNat k
  compressedSize : entry.compressedSize.toNat = member.length
  uncompressedSize : entry.uncompressedSize.toNat = data.length

theorem listed_indexOf {limit : Nat} (hlimit : limit < 2 ^ 32) {groups : List (List Bytes)}
    (h : ∀ blocks ∈ groups, GroupFits D level limit blocks) {g k : Nat} {blocks : List Bytes}
    {data : Bytes} (hg : groups[g]? = some blocks) (hk : blocks[k]? = some data) :
    ∃ member entry,
      Listed D level groups g k (FileGroup.ofBlocks D level blocks) member data entry := by
  have hlt := (List.getElem?_eq_some_iff.mp hk).1
  obtain ⟨e, member, hentry, hmember, hcompressed, huncompressed⟩ :=
    getElem?_groupEntries hlimit (h blocks (List.mem_of_getElem? hg)) hk
  have hmeta := getElem?_blockMetas hg hentry 0
  have hoffset := getElem?_memberOffsets D level hg hlt 0
  rw [Nat.zero_add] at hmeta hoffset
  refine ⟨member, _, ?_, hmember, ?_, hmeta, rfl, rfl, hcompressed, huncompressed⟩
  · rw [List.getElem?_map, hg, Option.map_some]
  · rw [compressedOffset, indexOf,
      List.getElem?_append_left (List.getElem?_eq_some_iff.mp hoffset).1, hoffset,
      ← List.map_take, ← fileBytes_eq_flatMap]
    rfl

variable {config : PgzfConfig} {bufs : List Bytes}

/-- `build` on a written file: the counts and totals are those of the payload and the file, and for
every block the index names where its member stands, where its data begins, its group, its place
there and its sizes. -/
theorem build_finds_layout (hlimits : WithinLimits D (2 ^ 32 - 1) config bufs.flatten)
    (hcompress : Compresses D config bufs.flatten)
    (hgroups : (config.groupsOf bufs.flatten).length < 2 ^ 32) :
    ∃ (w : PgzfWriter) (layout : List FileGroup) (index : PgzfIndex) (s : Source),
      run D (Sink.atEnd []) config bufs = .ok w.inner w ∧
      w.inner.cursor.bytes = layout.flatMap FileGroup.bytes ∧
      List.Forall₂ (GroupShape D config.compressionLevel) (config.groupsOf bufs.flatten) layout ∧
      build ⟨w.inner.cursor.bytes, 0, []⟩ = .ok index s ∧
      index.blockCount = (bufs.flatten.length + config.blockSize - 1) / config.blockSize ∧
      index.groupCount = (index.blockCount + max 1 config.groupBlocks - 1) / max 1
        config.groupBlocks ∧
      index.totalUncompressed = bufs.flatten.length ∧
      index.totalCompressed = w.inner.cursor.bytes.length ∧
      ∀ i < index.blockCount, ∃ group member data entry,
        layout[i / max 1 config.groupBlocks]? = some group ∧
        group.members[i % max 1 config.groupBlocks]? = some member ∧
        (config.blocksOf bufs.flatten)[i]? = some data ∧
        index.compressedOffset i =
          some (((layout.take (i / max 1 config.groupBlocks)).flatMap FileGroup.bytes).length +
          (group.members.take (i % max 1 config.groupBlocks)).flatten.length) ∧
        index.uncompressedOffsets[i]? = some (i * config.blockSize) ∧
        index.blockMeta i = some entry ∧
        entry.groupIndex.toNat = i / max 1 config.groupBlocks ∧
        entry.blockInGroup.toNat = i % max 1 config.groupBlocks ∧
        entry.compressedSize.toNat = member.length ∧
        entry.uncompressedSize.toNat = data.length := by
  have hgb : 0 < max 1 config.groupBlocks := by omega
  have hbs := hlimits.blockSize_pos
  obtain ⟨w, hrun, hbytes⟩ := run_fileBytes hbs hlimits.allocated hlimits.batchSize_pos hcompress
  obtain ⟨q, hbuild⟩ := build_fileBytes hlimits.fits (by omega) stops_nil (by
    rw [List.append_nil]
    exact hlimits.addressable) 0
  rw [List.append_nil] at hbuild
  have hflat := flatten_groupsOf config bufs.flatten
  have hcount : (indexOf D config.compressionLevel (config.groupsOf bufs.flatten)).blockCount =
      (config.blocksOf bufs.flatten).length := (length_blockMetas _ 0).trans (by rw [hflat])
  refine ⟨w, (config.groupsOf bufs.flatten).map (FileGroup.ofBlocks D config.compressionLevel),
    _, _, hrun,
    by rw [hbytes, fileBytes_eq_flatMap], ?_, by rw [hbytes]; exact hbuild, ?_, ?_, ?_, ?_, ?_⟩
  · rw [List.forall₂_map_right_iff, List.forall₂_same]
    intro blocks hblocks
    apply groupShape_ofBlocks (by omega) (hlimits.fits blocks hblocks)
    intro data hdata
    exact hcompress data (List.mem_cons_of_mem _ (mem_blocksOf hblocks hdata))
  · rw [hcount, PgzfConfig.blocksOf, Chunks.length_chunks hbs]
  · rw [hcount]
    exact Chunks.length_chunks hgb _
  · rw [totalUncompressed_indexOf, hflat, flatten_blocksOf hbs]
  · rw [totalCompressed_indexOf, hbytes]
  · intro i hi
    rw [hcount] at hi
    obtain ⟨blocks, hg, hk, hlen⟩ := Chunks.getElem?_chunks_div hgb hi
    have hposition :
        ((config.groupsOf bufs.flatten).take (i / max 1 config.groupBlocks)).flatten.length +
        i % max 1 config.groupBlocks = i := by
      rw [PgzfConfig.groupsOf, hlen, Nat.mul_comm]
      exact Nat.div_add_mod i _
    rw [List.getElem?_eq_getElem hi] at hk
    obtain ⟨member, entry, hlisted⟩ := listed_indexOf (by omega) hlimits.fits hg hk
    have hoffset := hlisted.offset
    have hentry := hlisted.entry_eq
    rw [hposition] at hoffset hentry
    have hgLt := (List.getElem?_eq_some_iff.mp hg).1
    have hkLt := (List.getElem?_eq_some_iff.mp hk).1
    have hkCount := hlimits.groupLength blocks (List.mem_of_getElem? hg)
    refine ⟨_, member, _, entry, hlisted.group_eq, hlisted.member_eq, List.getElem?_eq_getElem hi,
      hoffset, ?_, hentry, ?_, ?_, hlisted.compressedSize, hlisted.uncompressedSize⟩
    · have hstart := (Chunks.lt_length_chunks hbs bufs.flatten i).mp hi
      rw [getElem?_uncompressedOffsets_indexOf (by rwa [hflat]), hflat, PgzfConfig.blocksOf,
        Chunks.flatten_take_chunks hbs, List.length_take, Nat.min_eq_left (Nat.le_of_lt hstart)]
    · rw [hlisted.groupIndex]
      exact UInt32.toNat_ofNat_of_lt' (Nat.lt_trans hgLt hgroups)
    · rw [hlisted.blockInGroup]
      exact UInt32.toNat_ofNat_of_lt' (Nat.lt_of_lt_of_le hkLt (Nat.le_trans hkCount (by decide)))

theorem build_finds_layout_sample :
    ∃ (w : PgzfWriter) (layout : List FileGroup) (index : PgzfIndex) (s : Source),
      run Stored.deps (Sink.atEnd []) Stored.sampleConfig Stored.sampleBufs = .ok w.inner w ∧
      w.inner.cursor.bytes = layout.flatMap FileGroup.bytes ∧
      build ⟨w.inner.cursor.bytes, 0, []⟩ = .ok index s ∧ index.blockCount = 4 ∧
        index.groupCount = 2 ∧
      index.uncompressedOffsets[3]? = some 6 := by
  obtain ⟨w, layout, index, s, hrun, hbytes, -, hbuild, hblocks, hgroups, -, -, hall⟩ :=
    build_finds_layout Stored.sample_withinLimits_u32 Stored.sample_codec.compresses (by decide)
  have hcount : index.blockCount = 4 := hblocks
  rw [hcount] at hgroups
  obtain ⟨-, -, -, -, -, -, -, -, hoffset, -⟩ := hall 3 (by omega)
  exact ⟨w, layout, index, s, hrun, hbytes, hbuild, hcount, hgroups, hoffset⟩

end Pgzf
