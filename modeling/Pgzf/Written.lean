import Pgzf.Emit
import Pgzf.Turns

/-!
# What a writer has written

`Represents` ties a writer to the groups it has finished, the blocks it holds for the next one and
the bytes in its buffer. Every operation keeps it, and `finish` leaves no block behind: whatever the
split into `write` calls and batches, the blocks are the chunks of the payload and the groups the
chunks of the blocks.
-/

namespace Pgzf

open PgzfWriter

variable (D : Deps)

def PgzfConfig.blocksOf (config : PgzfConfig) (payload : Bytes) : List Bytes :=
  Chunks.chunks config.blockSize payload

def PgzfConfig.groupsOf (config : PgzfConfig) (payload : Bytes) : List (List Bytes) :=
  Chunks.chunks (max 1 config.groupBlocks) (config.blocksOf payload)

/-- The operations of a file of whole groups that starts at `start`. -/
def fileOps (level : Nat) : Nat → List (List Bytes) → List SinkOp
  | _, [] => []
  | start, blocks :: groups =>
    groupOps D level start blocks ++ fileOps level
      (start + (groupBytes D level blocks).length) groups

/-- The writer `w` has finished `groups`, holds `pending`, and has `tail` in its buffer; its sink
began with the content `before`. -/
structure Represents (before : Bytes) (config : PgzfConfig) (groups : List (List Bytes))
    (pending : List Bytes) (tail : Bytes) (w : PgzfWriter) : Prop where
  faults : w.inner.faults = []
  cursor : w.inner.cursor = ⟨before ++ fileBytes D config.compressionLevel groups,
    (before ++ fileBytes D config.compressionLevel groups).length⟩
  log : w.inner.log = .streamPosition :: fileOps D config.compressionLevel before.length groups
  config_eq : w.config = config
  allocated : config.blockSize < 2 ^ 63
  buffer_length : w.buffer.length = config.blockSize
  buffer : w.buffer.take w.bufferLen = tail
  bufferLen : w.bufferLen = tail.length
  pendingBlocks : w.pendingBlocks = typed pending
  blocksInGroup : w.blocksInGroup = pending.length
  groupStartOffset : w.groupStartOffset =
    (before ++ fileBytes D config.compressionLevel groups).length
  gcPending : w.gcPending = !pending.isEmpty
  totalCompressed : w.totalCompressed = (groups.map (groupZcSum D config.compressionLevel)).sum
  totalUncompressed : w.totalUncompressed =
    (groups.map (groupIsizeSum D config.compressionLevel)).sum
  totalBlocks : w.totalBlocks = groups.flatten.length

variable {D}

theorem fileOps_append (level start : Nat) (groups groups' : List (List Bytes)) :
    fileOps D level start (groups ++ groups') =
      fileOps D level start groups ++ fileOps D level (start + (fileBytes D level groups).length)
        groups' := by
  induction groups generalizing start with
  | nil => rfl
  | cons blocks groups ih =>
    rw [List.cons_append, fileOps, ih, fileOps, fileBytes_cons, List.length_append,
      List.append_assoc, Nat.add_assoc]

theorem typed_concat (pending : List Bytes) (data : Bytes) :
    typed (pending ++ [data]) = typed pending ++
      [⟨data, if pending.length = 0 then .beg else .dat⟩] := by
  cases pending with
  | nil => rfl
  | cons first rest => simp [typed]

section Operations

variable {before : Bytes} {config : PgzfConfig} {groups : List (List Bytes)} {pending : List Bytes}
  {tail : Bytes} {w : PgzfWriter}

theorem represents_started (before : Bytes) {config : PgzfConfig} (h : config.blockSize < 2 ^ 63) :
    Represents D before config [] [] [] (started (Sink.atEnd before) config) := by
  have hposition : Sink.streamPosition (Sink.atEnd before) =
      .ok before.length ((Sink.atEnd before).after [.streamPosition]) := rfl
  have hbuffer : (List.replicate config.blockSize (0 : UInt8)).length = config.blockSize :=
    List.length_replicate
  rw [started, onSink, hposition]
  constructor <;> simp [Sink.after, Sink.atEnd, replay, SinkOp.run, fileBytes, fileOps,
    typed, hbuffer]
  exact h

/-- A flush finishes the open group. -/
theorem flushGroup_represents (h : Represents D before config groups pending tail w)
    (hne : pending ≠ []) (hbatch : 0 < config.compressionBatchSize)
    (hcompress : ∀ data ∈ [] :: pending, ∃ out, compressBlock D config.compressionLevel data =
      .ok out) :
    ∃ w', flushGroup D w = .ok () w' ∧
      Represents D before config (groups ++ [pending]) [] tail w' := by
  have hgc : w.gcPending = true := by
    rw [h.gcPending]
    simpa using hne
  have hfile : before ++ fileBytes D config.compressionLevel groups ++
      groupBytes D config.compressionLevel pending =
      before ++ fileBytes D config.compressionLevel (groups ++ [pending]) := by
    rw [fileBytes_append, fileBytes_cons, List.append_assoc]
    simp only [fileBytes, List.flatMap_nil, List.append_nil]
  refine ⟨_, flushGroup_eq h.faults h.cursor h.groupStartOffset h.pendingBlocks hgc hne
    (by rwa [h.config_eq]) (by rw [h.config_eq]) hcompress, ?_⟩
  constructor
  · exact h.faults
  · simp only [Sink.after, h.cursor, replay_groupOps D config.compressionLevel _ hne, hfile]
  · simp only [Sink.after, h.log, fileOps_append, fileOps, List.append_nil, List.cons_append,
      List.length_append]
  · exact h.config_eq
  · exact h.allocated
  · exact h.buffer_length
  · exact h.buffer
  · exact h.bufferLen
  · rfl
  · rfl
  · simp only [hfile]
  · rfl
  · simp only [h.totalCompressed, List.map_append, List.sum_append, List.map_cons, List.map_nil,
      List.sum_cons, List.sum_nil, Nat.add_zero]
  · simp only [h.totalUncompressed, List.map_append, List.sum_append, List.map_cons, List.map_nil,
      List.sum_cons, List.sum_nil, Nat.add_zero]
  · simp only [h.totalBlocks, List.flatten_append, List.length_append, List.flatten_cons,
      List.flatten_nil, List.append_nil]

theorem flushGroup_nil (h : Represents D before config groups [] tail w) :
    flushGroup D w = .ok () w := by
  rw [flushGroup, Program.bind_ok (Program.get_apply _)]
  simp only [h.pendingBlocks, typed, List.isEmpty_nil, if_true, Program.pure_apply]

theorem moved_represents (h : Represents D before config groups pending tail w) :
    Represents D before config groups (pending ++ [tail]) [] w.moved := by
  constructor
  · exact h.faults
  · exact h.cursor
  · exact h.log
  · exact h.config_eq
  · exact h.allocated
  · simp only [moved, List.length_replicate, h.config_eq]
  · rfl
  · rfl
  · simp only [moved, h.pendingBlocks, h.buffer, h.blocksInGroup, typed_concat]
  · simp only [moved, h.blocksInGroup, List.length_append, List.length_cons, List.length_nil]
  · exact h.groupStartOffset
  · rw [gcPending_moved, h.blocksInGroup, h.gcPending]
    cases pending <;> rfl
  · exact h.totalCompressed
  · exact h.totalUncompressed
  · exact h.totalBlocks

theorem bufferBlock_moved (h : Represents D before config groups pending tail w) (hne : tail ≠ []) :
    ∃ moved, Represents D before config groups (pending ++ [tail]) [] moved ∧
      bufferBlock D w = if config.groupBlocks ≤ pending.length + 1 then
        Prog.expect "failed to flush group" (flushGroup D) moved else .ok () moved := by
  have hlen : w.bufferLen ≠ 0 := by
    rw [h.bufferLen]
    exact Nat.ne_of_gt (List.length_pos_iff.mpr hne)
  refine ⟨w.moved, moved_represents h, ?_⟩
  rw [bufferBlock_apply hlen (h.config_eq ▸ h.allocated), h.config_eq, h.blocksInGroup]

/-- A block joins the open group, which is finished when it is full. -/
theorem bufferBlock_represents (h : Represents D before config groups pending tail w)
    (hne : tail ≠ []) (hbatch : 0 < config.compressionBatchSize)
    (hcompress : ∀ data ∈ [] :: (pending ++ [tail]), ∃ out,
      compressBlock D config.compressionLevel data = .ok out) :
    ∃ w', bufferBlock D w = .ok () w' ∧
      if config.groupBlocks ≤ pending.length + 1 then Represents D before config
        (groups ++ [pending ++ [tail]]) [] [] w'
      else Represents D before config groups (pending ++ [tail]) [] w' := by
  obtain ⟨moved, hmoved, hrun⟩ := bufferBlock_moved h hne
  rw [hrun]
  by_cases hfull : config.groupBlocks ≤ pending.length + 1
  · obtain ⟨w', hflush, hrep⟩ := flushGroup_represents hmoved (by simp) hbatch hcompress
    simp only [hfull, if_true]
    exact ⟨w', Prog.expect_ok hflush, hrep⟩
  · simp only [hfull, if_false]
    exact ⟨moved, rfl, hmoved⟩

end Operations

/-! ### Runs of `write` -/

structure Full (config : PgzfConfig) (groups : List (List Bytes)) (pending : List Bytes) :
    Prop where
  groupLength : ∀ blocks ∈ groups, blocks.length = max 1 config.groupBlocks
  pendingLength : pending.length < max 1 config.groupBlocks
  blockLength : ∀ data ∈ groups.flatten ++ pending, data.length = config.blockSize

def accepted (groups : List (List Bytes)) (pending : List Bytes) (tail : Bytes) : Bytes :=
  (groups.flatten ++ pending).flatten ++ tail

variable {config : PgzfConfig} {groups : List (List Bytes)} {pending : List Bytes} {tail : Bytes}

theorem full_nil (config : PgzfConfig) : Full config [] [] :=
  ⟨by simp, by rw [List.length_nil]; omega, by simp⟩

theorem Full.blocksOf (h : Full config groups pending) (tail : Bytes) (hsize : 0 < config.blockSize)
    (rest : Bytes) :
    config.blocksOf (accepted groups pending tail ++ rest) =
      groups.flatten ++ pending ++ config.blocksOf (tail ++ rest) := by
  rw [PgzfConfig.blocksOf, accepted, List.append_assoc, Chunks.chunks_append hsize h.blockLength,
    PgzfConfig.blocksOf]

/-- A full block moved from the buffer into the open group, and the group finished if it is full. -/
theorem Full.push (h : Full config groups pending) {data : Bytes}
    (hdata : data.length = config.blockSize) :
    if config.groupBlocks ≤ pending.length + 1 then Full config (groups ++ [pending ++ [data]]) []
    else Full config groups (pending ++ [data]) := by
  have hpending := h.pendingLength
  split
  · refine ⟨?_, by rw [List.length_nil]; omega, ?_⟩
    · intro blocks hblocks
      rcases List.mem_append.mp hblocks with hblocks | hblocks
      · exact h.groupLength blocks hblocks
      · rw [List.mem_singleton.mp hblocks, List.length_append, List.length_singleton]
        omega
    · intro d hd
      simp only [List.flatten_append, List.flatten_cons, List.flatten_nil, List.append_nil,
        List.mem_append, List.mem_singleton] at hd
      rcases hd with hd | hd | rfl
      · exact h.blockLength d (List.mem_append_left _ hd)
      · exact h.blockLength d (List.mem_append_right _ hd)
      · exact hdata
  · refine ⟨h.groupLength, by rw [List.length_append, List.length_singleton]; omega, ?_⟩
    intro d hd
    rw [← List.append_assoc] at hd
    rcases List.mem_append.mp hd with hd | hd
    · exact h.blockLength d hd
    · rw [List.mem_singleton.mp hd]
      exact hdata

theorem accepted_push (groups : List (List Bytes)) (pending : List Bytes) (data : Bytes) :
    accepted (groups ++ [pending ++ [data]]) [] [] = accepted groups pending data ∧
      accepted groups (pending ++ [data]) [] = accepted groups pending data := by
  constructor <;>
    simp only [accepted, List.flatten_append, List.flatten_cons, List.flatten_nil, List.append_nil,
      List.append_assoc]

def Compresses (D : Deps) (config : PgzfConfig) (payload : Bytes) : Prop :=
  ∀ data ∈ [] :: config.blocksOf payload, ∃ out,
    compressBlock D config.compressionLevel data = .ok out

variable {before : Bytes} {w : PgzfWriter}

def Accepted (D : Deps) (before : Bytes) (config : PgzfConfig) (payload : Bytes) (w : PgzfWriter) :
    Prop :=
  ∃ groups pending tail, Represents D before config groups pending tail w ∧
    Full config groups pending ∧
    tail.length < config.blockSize ∧ accepted groups pending tail = payload

theorem filled_represents (h : Represents D before config groups pending tail w) {piece : Bytes}
    (hroom : tail.length + piece.length ≤ config.blockSize) :
    Represents D before config groups pending (tail ++ piece) (w.filled piece) := by
  rw [← h.bufferLen, ← h.buffer_length] at hroom
  constructor
  · exact h.faults
  · exact h.cursor
  · exact h.log
  · exact h.config_eq
  · exact h.allocated
  · exact (length_buffer_filled hroom).trans h.buffer_length
  · rw [take_buffer_filled hroom, h.buffer]
  · rw [List.length_append, ← h.bufferLen]
    rfl
  · exact h.pendingBlocks
  · exact h.blocksInGroup
  · exact h.groupStartOffset
  · exact h.gcPending
  · exact h.totalCompressed
  · exact h.totalUncompressed
  · exact h.totalBlocks

/-- One turn of the loop of `write` copies the piece
there is room for, and a full buffer becomes a block. -/
theorem writeLoop_turn (h : Represents D before config groups pending tail w)
    (htail : tail.length < config.blockSize) {buf : Bytes} {consumed : Nat}
    (hmore : consumed < buf.length) (fuel : Nat) :
    ∃ (piece : Bytes) (mid : PgzfWriter), 0 < piece.length ∧ consumed + piece.length ≤ buf.length ∧
      (buf.drop consumed).take piece.length = piece ∧ (tail ++ piece).length ≤ config.blockSize ∧
      Represents D before config groups pending (tail ++ piece) mid ∧
      writeLoop D buf (fuel + 1) consumed w =
        (if (tail ++ piece).length = config.blockSize then
          (bufferBlock D >>= fun _ => writeLoop D buf fuel (consumed + piece.length)) mid
        else writeLoop D buf fuel (consumed + piece.length) mid) := by
  obtain rfl := h.config_eq
  obtain ⟨piece, hpiece⟩ : ∃ piece, (buf.drop consumed).take (w.config.blockSize - tail.length) =
    piece := ⟨_, rfl⟩
  have hlen : piece.length = min (w.config.blockSize - tail.length) (buf.length - consumed) := by
    rw [← hpiece, List.length_take, List.length_drop]
  have hfront : (buf.drop consumed).take piece.length = piece := by
    rw [hlen, ← List.length_drop, ← List.take_eq_take_min, hpiece]
  have hroom : tail.length + piece.length ≤ w.config.blockSize := by omega
  refine ⟨piece, w.filled piece, by omega, by omega, hfront, by rwa [List.length_append],
    filled_represents h hroom, ?_⟩
  rw [← h.bufferLen] at hpiece
  rw [writeLoop_filled h.buffer_length (by rw [h.bufferLen]; omega) hmore hpiece, h.bufferLen,
    List.length_append]
  by_cases hblock : tail.length + piece.length = w.config.blockSize
  · simp only [if_pos hblock]
  · simp only [if_neg hblock]

theorem accepted_append (groups : List (List Bytes)) (pending : List Bytes) (tail piece : Bytes) :
    accepted groups pending (tail ++ piece) = accepted groups pending tail ++ piece := by
  simp only [accepted, List.append_assoc]

/-- One turn of the loop of `write` takes some of the buffer. -/
theorem writeLoop_step (hsize : 0 < config.blockSize) (hbatch : 0 < config.compressionBatchSize)
    {buf later payload : Bytes} {consumed : Nat} (hmore : consumed < buf.length)
    (hcompress : Compresses D config (payload ++ buf.drop consumed ++ later))
    (h : Accepted D before config payload w) (fuel : Nat) :
    ∃ take w', 0 < take ∧ consumed + take ≤ buf.length ∧
      writeLoop D buf (fuel + 1) consumed w = writeLoop D buf fuel (consumed + take) w' ∧
      Accepted D before config (payload ++ (buf.drop consumed).take take) w' := by
  obtain ⟨groups, pending, tail, hrep, hfull, htail, rfl⟩ := h
  obtain ⟨piece, mid, hpos, hle, hpiece, hroom, hfilled, hturn⟩ :=
    writeLoop_turn hrep htail hmore fuel
  by_cases hblock : (tail ++ piece).length = config.blockSize
  · -- the buffer is full: its block joins the open group
    have hsplit := List.take_append_drop piece.length (buf.drop consumed)
    rw [hpiece] at hsplit
    have hblocks : config.blocksOf (accepted groups pending tail ++ buf.drop consumed ++ later) =
        groups.flatten ++ pending ++
          (tail ++ piece) :: config.blocksOf ((buf.drop consumed).drop piece.length ++ later) := by
      conv_lhs => rw [← hsplit]
      rw [← List.append_assoc, ← accepted_append, List.append_assoc, hfull.blocksOf _ hsize,
        PgzfConfig.blocksOf, Chunks.chunks_cons hsize hblock, PgzfConfig.blocksOf]
    have hne : tail ++ piece ≠ [] := List.ne_nil_of_length_pos (by omega)
    obtain ⟨w', hrun, hafter⟩ := bufferBlock_represents hfilled hne hbatch (by
      intro data hdata
      apply hcompress data
      rw [hblocks]
      simp only [List.mem_cons, List.mem_append, List.not_mem_nil, or_false] at hdata ⊢
      tauto)
    rw [if_pos hblock, Program.bind_ok hrun] at hturn
    refine ⟨piece.length, w', hpos, hle, hturn, ?_⟩
    rw [hpiece]
    have hpush := hfull.push hblock
    obtain ⟨hdone, hopen⟩ := accepted_push groups pending (tail ++ piece)
    split at hafter
    · rename_i hgroup
      rw [if_pos hgroup] at hpush
      exact ⟨_, _, _, hafter, hpush, hsize, by rw [hdone, accepted_append]⟩
    · rename_i hgroup
      rw [if_neg hgroup] at hpush
      exact ⟨_, _, _, hafter, hpush, hsize, by rw [hopen, accepted_append]⟩
  · rw [if_neg hblock] at hturn
    exact ⟨piece.length, mid, hpos, hle, hturn, groups, pending, tail ++ piece, hfilled,
      hfull, by omega, by rw [accepted_append, hpiece]⟩

theorem writeLoop_accepted (hsize : 0 < config.blockSize) (hbatch : 0 < config.compressionBatchSize)
    {buf later payload : Bytes} {consumed : Nat} (hconsumed : consumed ≤ buf.length)
    (hcompress : Compresses D config (payload ++ buf.drop consumed ++ later)) {fuel : Nat}
    (hfuel : buf.length - consumed < fuel) (h : Accepted D before config payload w) :
    ∃ w', writeLoop D buf fuel consumed w = .ok buf.length w' ∧
      Accepted D before config (payload ++ buf.drop consumed) w' := by
  induction fuel generalizing w consumed payload with
  | zero => exact absurd hfuel (Nat.not_lt_zero _)
  | succ fuel ih =>
    by_cases hmore : consumed < buf.length
    · obtain ⟨take, mid, htake, hle, hstep, hmid⟩ :=
        writeLoop_step hsize hbatch hmore hcompress h fuel
      have hsplit : payload ++ (buf.drop consumed).take take ++ buf.drop (consumed + take) =
          payload ++ buf.drop consumed := by
        rw [List.append_assoc, ← List.drop_drop, List.take_append_drop]
      obtain ⟨w', hrun, hafter⟩ := ih hle (by rwa [hsplit]) (by omega) hmid
      rw [hsplit] at hafter
      exact ⟨w', hstep.trans hrun, hafter⟩
    · refine ⟨w, ?_, ?_⟩
      · rw [writeLoop, if_neg hmore, Program.pure_apply, Nat.le_antisymm hconsumed (by omega)]
      · rwa [List.drop_eq_nil_of_le (by omega), List.append_nil]

theorem write_accepted (hsize : 0 < config.blockSize) (hbatch : 0 < config.compressionBatchSize)
    {buf later payload : Bytes} (hcompress : Compresses D config (payload ++ buf ++ later))
    (h : Accepted D before config payload w) :
    ∃ w', write D buf w = .ok buf.length w' ∧ Accepted D before config (payload ++ buf) w' :=
  writeLoop_accepted hsize hbatch (Nat.zero_le _) hcompress (by omega) h

theorem writeMany_accepted (hsize : 0 < config.blockSize) (hbatch : 0 < config.compressionBatchSize)
    {bufs : List Bytes} {later payload : Bytes}
    (hcompress : Compresses D config (payload ++ bufs.flatten ++ later))
    (h : Accepted D before config payload w) :
    ∃ w', writeMany D bufs w = .ok () w' ∧
      Accepted D before config (payload ++ bufs.flatten) w' := by
  have hrun : ∃ lens w', (bufs.mapM (write D)) w = .ok lens w' ∧
      Accepted D before config (payload ++ bufs.flatten) w' := by
    induction bufs generalizing w payload with
    | nil => exact ⟨[], w, rfl, by rwa [List.flatten_nil, List.append_nil]⟩
    | cons buf rest ih =>
      rw [List.flatten_cons, ← List.append_assoc] at hcompress
      obtain ⟨mid, hwrite, hmid⟩ := write_accepted hsize hbatch
        (show Compresses D config
          (payload ++ buf ++ (rest.flatten ++ later)) by rwa [← List.append_assoc]) h
      obtain ⟨lens, w', hrest, hafter⟩ := ih hcompress hmid
      refine ⟨buf.length :: lens, w', ?_, ?_⟩
      · rw [Program.mapM_cons_apply, hwrite]
        simp only [hrest]
      · rwa [List.flatten_cons, ← List.append_assoc]
  obtain ⟨lens, w', hmap, hafter⟩ := hrun
  exact ⟨w', by rw [writeMany, Program.bind_ok hmap, Program.pure_apply], hafter⟩

/-! ### `finish` -/

theorem Full.groupsOf (h : Full config groups pending) (hsize : 0 < config.blockSize)
    (htail : tail.length < config.blockSize) :
    config.groupsOf (accepted groups pending tail) =
      groups ++ Chunks.chunks (max 1 config.groupBlocks) (pending ++ if tail = [] then []
        else [tail]) := by
  have hblocks : config.blocksOf tail = if tail = [] then [] else [tail] := by
    split
    · rename_i hnil
      rw [hnil, PgzfConfig.blocksOf, Chunks.chunks_nil]
    · rename_i hne
      exact Chunks.chunks_of_length_le hsize hne (Nat.le_of_lt htail)
  have hall := h.blocksOf tail hsize []
  rw [List.append_nil, List.append_nil, hblocks] at hall
  rw [PgzfConfig.groupsOf, hall, List.append_assoc, Chunks.chunks_append (by omega) h.groupLength]

theorem flushGroup_last (h : Represents D before config groups pending tail w)
    (hpending : pending.length ≤ max 1 config.groupBlocks)
    (hbatch : 0 < config.compressionBatchSize)
    (hcompress : ∀ data ∈ [] :: pending, ∃ out, compressBlock D config.compressionLevel data =
      .ok out) :
    ∃ w', flushGroup D w = .ok () w' ∧
      Represents D before config (groups ++ Chunks.chunks (max 1 config.groupBlocks) pending)
        [] tail w' := by
  by_cases hnil : pending = []
  · subst hnil
    exact ⟨w, flushGroup_nil h, by rwa [Chunks.chunks_nil, List.append_nil]⟩
  · rw [Chunks.chunks_of_length_le (by omega) hnil hpending]
    exact flushGroup_represents h hnil hbatch hcompress

theorem bufferBlock_nil (h : Represents D before config groups pending [] w) :
    bufferBlock D w = .ok () w :=
  bufferBlock_empty h.bufferLen

/-- `finish` leaves the groups of the payload in the sink. -/
theorem finish_represents (hsize : 0 < config.blockSize) (hbatch : 0 < config.compressionBatchSize)
    {payload : Bytes} (hcompress : Compresses D config payload)
    (h : Accepted D before config payload w) :
    ∃ w', finish D w = .ok w'.inner w' ∧
      Represents D before config (config.groupsOf payload) [] [] w' := by
  obtain ⟨groups, pending, tail, hrep, hfull, htail, rfl⟩ := h
  have hgroups := hfull.groupsOf hsize htail
  have hpending := hfull.pendingLength
  have hlast : ∀ data ∈ [] :: (pending ++ if tail = [] then [] else [tail]),
      ∃ out, compressBlock D config.compressionLevel data = .ok out := by
    intro data hdata
    apply hcompress data
    have hblocks : (config.groupsOf (accepted groups pending tail)).flatten =
        config.blocksOf (accepted groups pending tail) := Chunks.flatten_chunks (by omega) _
    rw [hgroups, List.flatten_append, Chunks.flatten_chunks (by omega)] at hblocks
    rw [← hblocks, List.mem_cons] at *
    exact hdata.imp_right fun hmem => List.mem_append_right _ hmem
  rw [hgroups, finish]
  by_cases hnil : tail = []
  · subst hnil
    simp only [if_true, List.append_nil] at hlast ⊢
    obtain ⟨w', hflush, hdone⟩ := flushGroup_last hrep (Nat.le_of_lt hpending) hbatch hlast
    refine ⟨w', ?_, hdone⟩
    rw [Program.bind_ok (bufferBlock_nil hrep), Program.bind_ok hflush,
      Program.bind_ok (Program.get_apply _), Program.pure_apply]
  · simp only [hnil, if_false] at hlast ⊢
    obtain ⟨mid, hbuffer, hmid⟩ := bufferBlock_represents hrep hnil hbatch hlast
    have hlength : (pending ++ [tail]).length ≤ max 1 config.groupBlocks := by
      rw [List.length_append, List.length_singleton]
      omega
    rw [Program.bind_ok hbuffer]
    split at hmid
    · refine ⟨mid, ?_, ?_⟩
      · rw [Program.bind_ok (flushGroup_nil hmid), Program.bind_ok (Program.get_apply _),
          Program.pure_apply]
      · rwa [Chunks.chunks_of_length_le (by omega) (by simp) hlength]
    · obtain ⟨w', hflush, hdone⟩ := flushGroup_last hmid hlength hbatch hlast
      refine ⟨w', ?_, hdone⟩
      rw [Program.bind_ok hflush, Program.bind_ok (Program.get_apply _), Program.pure_apply]

/-- A whole run of a writer: the sink gets the groups
of the payload, however it was cut into `write`s. -/
theorem run_represents (hsize : 0 < config.blockSize) (hallocated : config.blockSize < 2 ^ 63)
    (hbatch : 0 < config.compressionBatchSize) {bufs : List Bytes}
    (hcompress : Compresses D config bufs.flatten) (before : Bytes) :
    ∃ w, run D (Sink.atEnd before) config bufs = .ok w.inner w ∧
      Represents D before config (config.groupsOf bufs.flatten) [] [] w := by
  have hnew : Accepted D before config [] (started (Sink.atEnd before) config) :=
    ⟨[], [], [], represents_started before hallocated, full_nil config, hsize, rfl⟩
  obtain ⟨mid, hwrites, hmid⟩ := writeMany_accepted hsize hbatch
    (show Compresses D config ([] ++ bufs.flatten ++ []) by rwa [List.nil_append, List.append_nil])
      hnew
  rw [List.nil_append] at hmid
  obtain ⟨w, hfinish, hdone⟩ := finish_represents hsize hbatch hcompress hmid
  exact ⟨w, by rw [run, onNew_eq hallocated, Program.bind_ok hwrites, hfinish], hdone⟩

end Pgzf
