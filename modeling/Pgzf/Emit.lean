import Pgzf.Groups
import Pgzf.Writer

/-!
# What a flush writes

The sink operations of one group, in order: the members piece by piece, the index member, and the
value of `GC` written over the zero in the header the group began with. `flushGroup_eq` says that a
flush performs exactly these, and `replay_groupOps` that they append the bytes of the group.
-/

namespace Pgzf

open PgzfWriter

variable (D : Deps) (level : Nat)

/-! ### The operations of a group -/

def typed : List Bytes → List PendingBlock
  | [] => []
  | first :: rest => ⟨first, .beg⟩ :: rest.map fun data => ⟨data, .dat⟩

def blockHeaderSize : BlockType → Nat
  | .beg => begHeaderSize
  | _ => datHeaderSize

/-- The header a block is written with; its `GC` is still zero. -/
def blockHeader (ty : BlockType) (zc : UInt32) : Bytes :=
  match ty with
  | .beg => begHeader zc 0
  | _ => datHeader zc

def pendingEntry (block : PendingBlock) : IndexEntry :=
  blockEntry D level (blockHeaderSize block.blockType) block.data

def blockPieces (block : PendingBlock) : List Bytes :=
  [blockHeader block.blockType (memberZc D level (blockHeaderSize block.blockType) block.data),
    deflated D level block.data, trailer D block.data]

def idxPieces (entries : List IndexEntry) : List Bytes :=
  [idxHeader (idxZc D level entries.length) entries, deflated D level [],
    List.replicate pgzfTailSize 0]

def groupPieces (blocks : List Bytes) : List Bytes :=
  (typed blocks).flatMap (blockPieces D level) ++ idxPieces D level (groupEntries D level blocks)

/-- Write `gc` into the header of the group that starts at `start`, and come back. -/
def patchOps (start : Nat) (gc : UInt64) (current : Nat) : List SinkOp :=
  [.streamPosition, .seek (start + gcValueOffset), .writeAll (u64Bytes gc), .seek current]

def groupOps (start : Nat) (blocks : List Bytes) : List SinkOp :=
  (groupPieces D level blocks).map .writeAll ++
    patchOps start (groupGc D level blocks) (start + (groupWith D level 0 blocks).length) ++
      [.streamPosition]

theorem map_pendingEntry_typed (blocks : List Bytes) :
    (typed blocks).map (pendingEntry D level) = groupEntries D level blocks := by
  cases blocks with
  | nil => rfl
  | cons first rest =>
    simp only [typed, groupEntries, List.map_cons, List.map_map]
    rfl

theorem flatten_groupPieces (blocks : List Bytes) :
    (groupPieces D level blocks).flatten = groupWith D level 0 blocks := by
  have hdat : ∀ rest : List Bytes, ((rest.map fun data => (⟨data, .dat⟩ : PendingBlock)).flatMap
      (blockPieces D level)).flatten = (rest.map (datMember D level)).flatten := by
    intro rest
    induction rest with
    | nil => rfl
    | cons data rest ih =>
      rw [List.map_cons, List.flatMap_cons, List.flatten_append, ih, List.map_cons,
        List.flatten_cons]
      simp only [blockPieces, datMember, List.flatten_cons, List.flatten_nil, List.append_nil,
        List.append_assoc]
      rfl
  have hidx : (idxPieces D level (groupEntries D level blocks)).flatten = idxMember D level
      (groupEntries D level blocks) := by
    simp only [idxPieces, idxMember, List.flatten_cons, List.flatten_nil, List.append_nil,
      List.append_assoc]
  rw [groupPieces, List.flatten_append, hidx, groupWith]
  cases blocks with
  | nil => rfl
  | cons first rest =>
    rw [typed, List.flatMap_cons, List.flatten_append, hdat, groupMembers, List.flatten_cons]
    simp only [blockPieces, begMember, List.flatten_cons, List.flatten_nil, List.append_nil,
      List.append_assoc]
    rfl

/-! ### Their effect on the content -/

theorem begHeader_gc (zc : UInt32) :
    ∃ front, front.length = gcValueOffset ∧ ∀ gc, begHeader zc gc = front ++ u64Bytes gc := by
  refine ⟨gzipBase ++ u16Bytes 20 ++ subField tagZc (u32Bytes zc) ++ (tagGc ++ u16Bytes 8), ?_,
    fun gc => ?_⟩
  · simp [gcValueOffset, gzipBase]
  · simp only [begHeader, memberHeader, List.length_append, length_subField, length_u32Bytes,
      length_u64Bytes, length_tagZc, length_tagGc, List.append_assoc]
    simp only [subField, length_u64Bytes, List.append_assoc]
    rfl

theorem overwrite_groupWith (content : Bytes) {blocks : List Bytes} (hne : blocks ≠ [])
    (gc : UInt64) :
    overwrite (content ++ groupWith D level 0 blocks) (content.length + gcValueOffset)
      (u64Bytes gc) =
      content ++ groupWith D level gc blocks := by
  obtain ⟨first, rest, rfl⟩ := List.exists_cons_of_ne_nil hne
  obtain ⟨front, hfront, hgc⟩ := begHeader_gc (memberZc D level begHeaderSize first)
  have hsplit : ∀ gc, content ++ groupWith D level gc (first :: rest) = (content ++ front) ++
      u64Bytes gc ++
      (deflated D level first ++ trailer D first ++ (rest.map (datMember D level)).flatten ++
        idxMember D level (groupEntries D level (first :: rest))) := by
    intro gc
    simp only [groupWith, groupMembers, begMember, hgc, List.flatten_cons, List.append_assoc]
  rw [hsplit 0, hsplit gc, ← hfront, ← List.length_append]
  exact overwrite_window _ _ _ _ (by rw [length_u64Bytes, length_u64Bytes])

theorem length_groupWith_eq (gc gc' : UInt64) (blocks : List Bytes) :
    (groupWith D level gc blocks).length = (groupWith D level gc' blocks).length := by
  rw [length_groupWith, length_groupWith]

theorem replay_groupOps (content : Bytes) {blocks : List Bytes} (hne : blocks ≠ []) :
    replay (groupOps D level content.length blocks) ⟨content, content.length⟩ =
      ⟨content ++ groupBytes D level blocks, (content ++ groupBytes D level blocks).length⟩ := by
  have hlen : content.length + (groupWith D level 0 blocks).length =
      (content ++ groupBytes D level blocks).length := by
    rw [List.length_append, groupBytes, length_groupWith_eq D level 0]
  rw [groupOps, replay_append, replay_append, replay_writes, flatten_groupPieces, patchOps, hlen]
  simp only [replay_cons, replay_nil, SinkOp.run, overwrite_groupWith D level content hne]
  rfl

/-! ### A flush performs these operations -/

section Flush

variable {D level}

theorem onInner_perform {w : PgzfWriter} (h : w.inner.faults = []) (op : SinkOp) :
    onInner (Sink.perform op) w = .ok () { w with inner := w.inner.after [op] } :=
  Program.onPart_ok (Sink.perform_ok h op)

theorem onInner_streamPosition {w : PgzfWriter} (h : w.inner.faults = []) :
    onInner Sink.streamPosition w = .ok w.inner.cursor.pos
      { w with inner := w.inner.after [.streamPosition] } :=
  Program.onPart_ok (by rw [Sink.streamPosition, Program.bind_ok (Sink.perform_ok h _)]; rfl)

variable (D level)

def compressedOf (block : PendingBlock) : CompressedBlock :=
  ⟨blockHeader block.blockType (memberZc D level (blockHeaderSize block.blockType) block.data),
    deflated D level block.data, trailer D block.data,
    memberZc D level (blockHeaderSize block.blockType) block.data, UInt32.ofNat block.data.length⟩

def emit (w : PgzfWriter) (block : PendingBlock) : PgzfWriter :=
  { w with
    inner := w.inner.after ((blockPieces D level block).map .writeAll)
    totalCompressed := w.totalCompressed + (pendingEntry D level block).compressedSize.toNat
    totalUncompressed := w.totalUncompressed + (pendingEntry D level block).uncompressedSize.toNat
    totalBlocks := w.totalBlocks + 1 }

variable {D level}

theorem writeTrailer_eq (crc size : UInt32) :
    writeU32Le (writeU32Le (List.replicate pgzfTailSize 0) 0 crc) 4 size = u32Bytes crc ++
      u32Bytes size := by
  have hfirst :=
    overwrite_zeros [] (u32Bytes crc) 0 pgzfTailSize 4 rfl (by rw [length_u32Bytes]; rfl)
  have hsecond := overwrite_zeros (u32Bytes crc) (u32Bytes size) 4 4 0 (length_u32Bytes crc).symm
    (length_u32Bytes size).symm
  rw [List.nil_append, List.nil_append] at hfirst
  rw [writeU32Le, writeU32Le, hfirst, hsecond, List.replicate_zero, List.append_nil]

theorem compressSingleBlock_eq {block : PendingBlock} {out : Bytes}
    (h : compressBlock D level block.data = .ok out) :
    compressSingleBlock D level block.data block.blockType = .ok (compressedOf D level block) := by
  obtain ⟨data, ty⟩ := block
  simp only [compressSingleBlock, compressBlock_eq_deflated D h, writeTrailer_eq]
  cases ty <;>
    simp only [compressedOf, blockHeader, blockHeaderSize, memberZc, memberSize, trailer,
      buildBegHeader_eq, buildDatHeader_eq]

theorem writeCompressed_eq {w : PgzfWriter} (h : w.inner.faults = []) (block : PendingBlock) :
    writeCompressed (compressedOf D level block) w = .ok (pendingEntry D level block)
      (emit D level w block) := by
  rw [writeCompressed, Sink.writeAll, Program.bind_ok (onInner_perform h _), Sink.writeAll,
    Program.bind_ok (onInner_perform (by exact h) _), Sink.writeAll,
      Program.bind_ok (onInner_perform (by exact h) _),
    Program.bind_ok (Program.modify_apply _ _), Program.pure_apply]
  simp only [Sink.after_after, emit, pendingEntry, blockEntry, compressedOf, blockPieces,
    List.map_cons, List.map_nil, List.cons_append, List.nil_append]

theorem writeBatch_eq {w : PgzfWriter} (h : w.inner.faults = []) {batch : List PendingBlock}
    (hcompress : ∀ block ∈ batch, ∃ out, compressBlock D level block.data = .ok out) :
    writeBatch D level batch w = .ok (batch.map (pendingEntry D level))
      (batch.foldl (emit D level) w) ∧
      (batch.foldl (emit D level) w).inner.faults = [] := by
  have hall : batch.mapM (fun block => compressSingleBlock D level block.data block.blockType) =
      .ok (batch.map (compressedOf D level)) :=
    Program.mapM_except_ok fun block hblock => by
      obtain ⟨out, hout⟩ := hcompress block hblock
      exact compressSingleBlock_eq hout
  have hone : ∀ w : PgzfWriter, w.inner.faults = [] → ∀ block ∈ batch,
      writeCompressed (compressedOf D level block) w = .ok (pendingEntry D level block)
        (emit D level w block) ∧
        (emit D level w block).inner.faults = [] :=
          fun w hw block _ => ⟨writeCompressed_eq hw block, hw⟩
  have hwrite := Program.mapM_eq_map hone h
  rw [writeBatch, compressAll_eq, hall, Program.bind_ok (Prog.ofExcept_ok _ _), List.mapM_map]
  exact hwrite

theorem foldl_emit (w : PgzfWriter) (blocks : List PendingBlock) :
    blocks.foldl (emit D level) w =
      { w with
        inner := w.inner.after ((blocks.flatMap (blockPieces D level)).map .writeAll)
        totalCompressed := w.totalCompressed + ((blocks.map (pendingEntry D level)).map fun e =>
          e.compressedSize.toNat).sum
        totalUncompressed :=
          w.totalUncompressed + ((blocks.map (pendingEntry D level)).map fun e =>
            e.uncompressedSize.toNat).sum
        totalBlocks := w.totalBlocks + blocks.length } := by
  induction blocks generalizing w with
  | nil => simp
  | cons block rest ih =>
    rw [List.foldl_cons, ih]
    simp only [emit, Sink.after_after, List.flatMap_cons, List.map_append, List.map_cons,
      List.sum_cons, List.length_cons, Nat.add_assoc, Nat.add_comm 1]

/-- The batches of a flush write the blocks one after
another; how they are cut makes no difference. -/
theorem mapM_writeBatch_eq {w : PgzfWriter} (h : w.inner.faults = []) {n : Nat} (hn : 0 < n)
    {blocks : List PendingBlock}
    (hcompress : ∀ block ∈ blocks, ∃ out, compressBlock D level block.data = .ok out) :
    ∃ entries, ((Chunks.chunks n blocks).mapM (writeBatch D level)) w =
      .ok entries (blocks.foldl (emit D level) w) ∧
      entries.flatten = blocks.map (pendingEntry D level) := by
  have hmem : ∀ batch ∈ Chunks.chunks n blocks, ∀ block ∈ batch, block ∈ blocks := by
    intro batch hbatch block hblock
    rw [← Chunks.flatten_chunks hn blocks]
    exact List.mem_flatten_of_mem hbatch hblock
  have hone : ∀ w : PgzfWriter, w.inner.faults = [] → ∀ batch ∈ Chunks.chunks n blocks,
      writeBatch D level batch w = .ok (batch.map (pendingEntry D level))
        (batch.foldl (emit D level) w) ∧
        (batch.foldl (emit D level) w).inner.faults = [] := fun w hw batch hbatch =>
    writeBatch_eq hw fun block hblock => hcompress block (hmem batch hbatch block hblock)
  obtain ⟨hrun, -⟩ := Program.mapM_eq_map hone h
  refine ⟨(Chunks.chunks n blocks).map (List.map (pendingEntry D level)), ?_, ?_⟩
  · rw [hrun, ← List.foldl_flatten, Chunks.flatten_chunks hn]
  · rw [← List.map_flatten, Chunks.flatten_chunks hn]

theorem writeIdx_eq {w : PgzfWriter} (h : w.inner.faults = []) {out : Bytes}
    (hcompress : compressBlock D level [] = .ok out) (entries : List IndexEntry) :
    writeIdx D level entries w = .ok () { w with
      inner := w.inner.after ((idxPieces D level entries).map .writeAll)
      totalCompressed := w.totalCompressed + (idxZc D level entries.length).toNat } := by
  have hsize : idxHeaderBaseSize + entries.length * 8 + (deflated D level []).length +
      pgzfTailSize = idxSize D level entries.length := by
    rw [idxSize, Nat.mul_comm]
  rw [writeIdx, compressBlock_eq_deflated D hcompress, Program.bind_ok (Prog.ofExcept_ok _ _)]
  simp only [hsize, buildIdxHeader_eq]
  rw [Sink.writeAll, Program.bind_ok (onInner_perform h _), Sink.writeAll,
    Program.bind_ok (onInner_perform (by exact h) _), Sink.writeAll,
      Program.bind_ok (onInner_perform (by exact h) _),
    Program.modify_apply]
  simp only [Sink.after_after, idxPieces, idxZc, List.map_cons, List.map_nil, List.cons_append,
    List.nil_append]

theorem writeGc_eq (gc : UInt64) : writeU64Le (List.replicate 8 0) 0 gc = u64Bytes gc := by
  have h := overwrite_zeros [] (u64Bytes gc) 0 8 0 rfl (length_u64Bytes gc).symm
  rw [List.nil_append, List.nil_append] at h
  rw [writeU64Le, h, List.replicate_zero, List.append_nil]

theorem backpatchGc_eq {w : PgzfWriter} (h : w.inner.faults = []) (hpending : w.gcPending = true)
    {blocks : List Bytes} :
    backpatchGc (groupEntries D level blocks) w = .ok () { w with
      inner :=
        w.inner.after (patchOps w.groupStartOffset (groupGc D level blocks) w.inner.cursor.pos)
      gcPending := false } := by
  rw [backpatchGc, Program.bind_ok (Program.get_apply _)]
  simp only [hpending, if_true, writeGc_eq]
  rw [Program.bind_ok (onInner_streamPosition h), Sink.seekStart,
    Program.bind_ok (onInner_perform (by exact h) _),
    Sink.writeAll, Program.bind_ok (onInner_perform (by exact h) _), Sink.seekStart,
    Program.bind_ok (onInner_perform (by exact h) _), Program.modify_apply]
  simp only [Sink.after_after, patchOps, groupGc, List.cons_append, List.nil_append]

/-- The sizes a group adds to the totals: of its
members, as the `ZC` fields say, and of its blocks. -/
def groupZcSum (D : Deps) (level : Nat) (blocks : List Bytes) : Nat :=
  ((groupEntries D level blocks).map fun e => e.compressedSize.toNat).sum +
    (idxZc D level blocks.length).toNat

def groupIsizeSum (D : Deps) (level : Nat) (blocks : List Bytes) : Nat :=
  ((groupEntries D level blocks).map fun e => e.uncompressedSize.toNat).sum

/-- A flush of an open group at the end of the content performs the operations of the group. -/
theorem flushGroup_eq {w : PgzfWriter} {content : Bytes} {blocks : List Bytes}
    (hfaults : w.inner.faults = []) (hcursor : w.inner.cursor = ⟨content, content.length⟩)
    (hstart : w.groupStartOffset = content.length) (hpending : w.pendingBlocks = typed blocks)
    (hgc : w.gcPending = true) (hne : blocks ≠ []) (hbatch : 0 < w.config.compressionBatchSize)
    (hlevel : w.config.compressionLevel = level)
    (hcompress : ∀ data ∈ [] :: blocks, ∃ out, compressBlock D level data = .ok out) :
    flushGroup D w = .ok () { w with
      inner := w.inner.after (groupOps D level content.length blocks)
      pendingBlocks := []
      blocksInGroup := 0
      gcPending := false
      groupStartOffset := (content ++ groupBytes D level blocks).length
      totalCompressed := w.totalCompressed + groupZcSum D level blocks
      totalUncompressed := w.totalUncompressed + groupIsizeSum D level blocks
      totalBlocks := w.totalBlocks + blocks.length } := by
  have htypedNe : (typed blocks).isEmpty = false := by
    obtain ⟨first, rest, rfl⟩ := List.exists_cons_of_ne_nil hne
    rfl
  have htypedLen : (typed blocks).length = blocks.length := by
    cases blocks <;> simp [typed]
  have hdata : ∀ block ∈ typed blocks, block.data ∈ blocks := by
    intro block hblock
    cases blocks with
    | nil => exact absurd hblock List.not_mem_nil
    | cons first rest =>
      rcases List.mem_cons.mp hblock with rfl | hblock
      · exact List.mem_cons_self
      · obtain ⟨data, hmem, rfl⟩ := List.mem_map.mp hblock
        exact List.mem_cons_of_mem _ hmem
  obtain ⟨entries, hbatches, hentries⟩ := mapM_writeBatch_eq hfaults hbatch
    (show ∀ block ∈ typed blocks, ∃ out, compressBlock D level block.data = .ok out
        from fun block hblock =>
      hcompress block.data (List.mem_cons_of_mem _ (hdata block hblock)))
  rw [map_pendingEntry_typed] at hentries
  obtain ⟨out, hempty⟩ := hcompress [] List.mem_cons_self
  rw [foldl_emit, map_pendingEntry_typed, htypedLen] at hbatches
  -- the position behind the index member, where the writer comes back to
  have hcurrent : (replay ((groupPieces D level blocks).map .writeAll) w.inner.cursor).pos =
      content.length + (groupWith D level 0 blocks).length := by
    rw [hcursor, replay_writes, flatten_groupPieces, List.length_append]
  have hend : (replay ((groupPieces D level blocks).map .writeAll ++ patchOps content.length
      (groupGc D level blocks)
      (content.length + (groupWith D level 0 blocks).length)) w.inner.cursor).pos =
      (content ++ groupBytes D level blocks).length := by
    have hreplay := replay_groupOps D level content hne
    rw [groupOps, replay_append] at hreplay
    rw [hcursor]
    exact congrArg Cursor.pos hreplay
  rw [flushGroup, Program.bind_ok (Program.get_apply _)]
  simp only [hpending, htypedNe, Bool.false_eq_true, if_false, Nat.ne_of_gt hbatch, hlevel]
  rw [Program.bind_ok hbatches, hentries, Program.bind_ok (writeIdx_eq (by exact hfaults) hempty _),
    Program.bind_ok (backpatchGc_eq (by exact hfaults) (by exact hgc)),
      Program.bind_ok (Program.modify_apply _ _),
    Program.bind_ok (onInner_streamPosition (by exact hfaults)), Program.modify_apply]
  have hpieces : (typed blocks).flatMap (blockPieces D level) ++ idxPieces D level
      (groupEntries D level blocks) = groupPieces D level blocks := rfl
  simp only [Sink.after_after, ← List.map_append, length_groupEntries, hpieces, hstart]
  simp only [Sink.after, hcurrent, hend, groupOps, groupZcSum, groupIsizeSum, Nat.add_assoc]

end Flush

end Pgzf
