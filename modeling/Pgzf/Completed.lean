import Pgzf.Limits

/-!
# Writers that ran without an error

`Written` says what a writer does when everything it is given can be compressed. Here the direction
is turned round: a call that ended with a value has compressed every group it finished, so what is
known of successful runs needs no assumption about the compressor.
-/

namespace Pgzf

open PgzfWriter

variable {D : Deps} {level : Nat}

/-! ### What a flush has compressed -/

theorem compresses_of_compressSingleBlock {data : Bytes} {ty : BlockType} {cb : CompressedBlock}
    (h : compressSingleBlock D level data ty = .ok cb) :
    ∃ out, compressBlock D level data = .ok out := by
  unfold compressSingleBlock at h
  split at h
  · exact absurd h (by simp)
  · exact ⟨_, ‹_›⟩

theorem compresses_of_writeBatch {batch : List PendingBlock} {w w' : PgzfWriter}
    {entries : List IndexEntry} (h : writeBatch D level batch w = .ok entries w') :
    ∀ block ∈ batch, ∃ out, compressBlock D level block.data = .ok out := by
  rw [writeBatch] at h
  obtain ⟨compressed, mid, hbatch, -⟩ := Program.of_bind_ok h
  intro block hblock
  obtain ⟨cb, hcb⟩ := Program.of_mapM_except_ok (Prog.of_ofExcept_ok hbatch).1 block hblock
  exact compresses_of_compressSingleBlock hcb

theorem compresses_of_writeIdx {entries : List IndexEntry} {w w' : PgzfWriter}
    (h : writeIdx D level entries w = .ok () w') : ∃ out, compressBlock D level [] = .ok out := by
  rw [writeIdx] at h
  obtain ⟨out, mid, hout, -⟩ := Program.of_bind_ok h
  exact ⟨out, (Prog.of_ofExcept_ok hout).1⟩

/-- A flush that ended with a value has compressed every
block of the group, and the empty data of its index. -/
theorem compresses_of_flushGroup {w w' : PgzfWriter} (hne : w.pendingBlocks ≠ [])
    (h : flushGroup D w = .ok () w') :
    0 < w.config.compressionBatchSize ∧
      (∃ out, compressBlock D w.config.compressionLevel [] = .ok out) ∧
      ∀ block ∈ w.pendingBlocks, ∃ out, compressBlock D w.config.compressionLevel block.data =
        .ok out := by
  have hopen : w.pendingBlocks.isEmpty = false := by simpa using hne
  rw [flushGroup, Program.bind_ok (Program.get_apply _)] at h
  simp only [hopen, Bool.false_eq_true, if_false] at h
  by_cases hbatch : w.config.compressionBatchSize = 0
  · rw [if_pos hbatch] at h
    exact absurd h (by simp)
  · rw [if_neg hbatch] at h
    obtain ⟨entries, mid, hbatches, h⟩ := Program.of_bind_ok h
    obtain ⟨⟨⟩, mid', hidx, -⟩ := Program.of_bind_ok h
    refine ⟨Nat.pos_of_ne_zero hbatch, compresses_of_writeIdx hidx, ?_⟩
    intro block hblock
    rw [← Chunks.flatten_chunks (Nat.pos_of_ne_zero hbatch) w.pendingBlocks] at hblock
    obtain ⟨batch, hmem, hblock⟩ := List.mem_flatten.mp hblock
    obtain ⟨written, before, after, hbatch⟩ := Program.of_mapM_ok hbatches batch hmem
    exact compresses_of_writeBatch hbatch block hblock

/-! ### What a writer has compressed -/

/-- The blocks of the groups could be compressed, and the empty data of their index members. -/
def Sealed (D : Deps) (config : PgzfConfig) (groups : List (List Bytes)) : Prop :=
  ∀ blocks ∈ groups, ∀ data ∈ [] :: blocks, ∃ out,
    compressBlock D config.compressionLevel data = .ok out

/-- The writer has accepted `payload`, and the groups it has finished could be compressed. -/
def Carried (D : Deps) (before : Bytes) (config : PgzfConfig) (payload : Bytes) (w : PgzfWriter) :
    Prop :=
  ∃ groups pending tail, Represents D before config groups pending tail w ∧
    Full config groups pending ∧
    tail.length < config.blockSize ∧ accepted groups pending tail = payload ∧ Sealed D config groups

variable {before : Bytes} {config : PgzfConfig} {groups : List (List Bytes)} {pending : List Bytes}
  {tail payload : Bytes} {w w' : PgzfWriter}

theorem Sealed.concat (h : Sealed D config groups) {blocks : List Bytes}
    (hblocks : ∀ data ∈ [] :: blocks, ∃ out, compressBlock D config.compressionLevel data =
      .ok out) :
    Sealed D config (groups ++ [blocks]) := by
  intro b hb
  rcases List.mem_append.mp hb with hb | hb
  · exact h b hb
  · rw [List.mem_singleton.mp hb]
    exact hblocks

theorem mem_data_typed {blocks : List Bytes} {data : Bytes} (h : data ∈ blocks) :
    ∃ block ∈ typed blocks, block.data = data := by
  obtain ⟨first, rest, rfl⟩ := List.exists_cons_of_ne_nil (List.ne_nil_of_mem h)
  rcases List.mem_cons.mp h with rfl | h
  · exact ⟨_, List.mem_cons_self, rfl⟩
  · exact ⟨⟨data, .dat⟩, List.mem_cons_of_mem _ (List.mem_map_of_mem h), rfl⟩

theorem flushGroup_of_ok (h : Represents D before config groups pending tail w) (hne : pending ≠ [])
    (hsealed : Sealed D config groups) (hrun : flushGroup D w = .ok () w') :
    Represents D before config (groups ++ [pending]) [] tail w' ∧
      Sealed D config (groups ++ [pending]) := by
  have htyped : w.pendingBlocks ≠ [] := by
    obtain ⟨first, rest, rfl⟩ := List.exists_cons_of_ne_nil hne
    rw [h.pendingBlocks]
    exact List.cons_ne_nil _ _
  obtain ⟨hbatch, hempty, hpending⟩ := compresses_of_flushGroup htyped hrun
  rw [h.config_eq] at hbatch hempty hpending
  have hcompress : ∀ data ∈ [] :: pending, ∃ out, compressBlock D config.compressionLevel data =
      .ok out := by
    intro data hdata
    rcases List.mem_cons.mp hdata with rfl | hdata
    · exact hempty
    · obtain ⟨block, hblock, rfl⟩ := mem_data_typed hdata
      exact hpending block (by rwa [h.pendingBlocks])
  obtain ⟨w'', hrun', hrep⟩ := flushGroup_represents h hne hbatch hcompress
  obtain ⟨-, rfl⟩ := EStateM.Result.ok.inj (hrun.symm.trans hrun')
  exact ⟨hrep, hsealed.concat hcompress⟩

theorem bufferBlock_of_ok (h : Represents D before config groups pending tail w) (hne : tail ≠ [])
    (hsealed : Sealed D config groups) (hrun : bufferBlock D w = .ok () w') :
    if config.groupBlocks ≤ pending.length + 1 then
      Represents D before config (groups ++ [pending ++ [tail]]) [] [] w' ∧
        Sealed D config (groups ++ [pending ++ [tail]])
    else Represents D before config groups (pending ++ [tail]) [] w' := by
  obtain ⟨moved, hmoved, hmove⟩ := bufferBlock_moved h hne
  rw [hmove] at hrun
  by_cases hfull : config.groupBlocks ≤ pending.length + 1
  · rw [if_pos hfull] at hrun ⊢
    exact flushGroup_of_ok hmoved (by simp) hsealed (Prog.of_expect_ok hrun)
  · rw [if_neg hfull] at hrun ⊢
    rwa [← (EStateM.Result.ok.inj hrun).2]

/-- A `write` that ended with a value has taken its whole buffer. -/
theorem writeLoop_of_ok (hsize : 0 < config.blockSize) {buf : Bytes} {consumed n fuel : Nat}
    (h : Carried D before config payload w) (hrun : writeLoop D buf fuel consumed w = .ok n w') :
    Carried D before config (payload ++ buf.drop consumed) w' := by
  induction fuel generalizing w consumed payload with
  | zero => exact absurd hrun (by simp [writeLoop])
  | succ fuel ih =>
    by_cases hmore : consumed < buf.length
    · obtain ⟨groups, pending, tail, hrep, hfull, htail, rfl, hsealed⟩ := h
      obtain ⟨piece, mid, hpos, hle, hpiece, hroom, hfilled, hturn⟩ :=
        writeLoop_turn hrep htail hmore fuel
      have hsplit : accepted groups pending tail ++ piece ++ buf.drop (consumed + piece.length) =
          accepted groups pending tail ++ buf.drop consumed := by
        rw [List.append_assoc, ← List.drop_drop]
        congr 1
        conv_rhs => rw [← List.take_append_drop piece.length (buf.drop consumed), hpiece]
      rw [hturn] at hrun
      rw [← hsplit]
      by_cases hblock : (tail ++ piece).length = config.blockSize
      · rw [if_pos hblock] at hrun
        obtain ⟨⟨⟩, next, hbuffer, hrun⟩ := Program.of_bind_ok hrun
        have hafter :=
          bufferBlock_of_ok hfilled (List.ne_nil_of_length_pos (by omega)) hsealed hbuffer
        have hpush := hfull.push hblock
        obtain ⟨hdone, hopen⟩ := accepted_push groups pending (tail ++ piece)
        refine ih ?_ hrun
        split at hafter
        · rename_i hgroup
          rw [if_pos hgroup] at hpush
          exact ⟨_, _, _, hafter.1, hpush, hsize, by rw [hdone, accepted_append], hafter.2⟩
        · rename_i hgroup
          rw [if_neg hgroup] at hpush
          exact ⟨_, _, _, hafter, hpush, hsize, by rw [hopen, accepted_append], hsealed⟩
      · rw [if_neg hblock] at hrun
        exact ih ⟨groups, pending, tail ++ piece, hfilled, hfull, by omega, accepted_append _ _ _ _,
          hsealed⟩ hrun
    · rw [writeLoop, if_neg hmore, Program.pure_apply] at hrun
      rw [List.drop_eq_nil_of_le (by omega), List.append_nil]
      rwa [← (EStateM.Result.ok.inj hrun).2]

theorem call_of_ok (hsize : 0 < config.blockSize) {c : WriteCall}
    (h : Carried D before config payload w) (hrun : call D c w = .ok () w') :
    Carried D before config (payload ++ c.bytes) w' := by
  cases c with
  | write buf =>
    obtain ⟨n, mid, hwrite, hpure⟩ := Program.of_bind_ok hrun
    rw [Program.pure_apply] at hpure
    rw [← (EStateM.Result.ok.inj hpure).2]
    exact writeLoop_of_ok hsize h hwrite
  | flush =>
    rw [WriteCall.bytes, List.append_nil]
    rwa [← (EStateM.Result.ok.inj hrun).2]

theorem carried_started (before : Bytes) (hsize : 0 < config.blockSize)
    (hallocated : config.blockSize < 2 ^ 63) :
    Carried D before config [] (started (Sink.atEnd before) config) :=
  ⟨[], [], [], represents_started before hallocated, full_nil config, hsize, rfl,
    fun _ hblocks => absurd hblocks List.not_mem_nil⟩

theorem calls_of_ok (hsize : 0 < config.blockSize) {calls : List WriteCall} {answers : List Unit}
    (h : Carried D before config payload w) (hrun : (calls.mapM (call D)) w = .ok answers w') :
    Carried D before config (payload ++ calls.flatMap WriteCall.bytes) w' := by
  induction calls generalizing w payload answers with
  | nil =>
    rw [List.flatMap_nil, List.append_nil]
    rwa [← (EStateM.Result.ok.inj hrun).2]
  | cons c rest ih =>
    rw [List.mapM_cons] at hrun
    obtain ⟨⟨⟩, mid, hcall, hrun⟩ := Program.of_bind_ok hrun
    obtain ⟨others, mid', hrest, hpure⟩ := Program.of_bind_ok hrun
    rw [Program.pure_apply] at hpure
    obtain ⟨-, rfl⟩ := EStateM.Result.ok.inj hpure
    rw [List.flatMap_cons, ← List.append_assoc]
    exact ih (call_of_ok hsize h hcall) hrest

/-- A `finish` that ended with a value has written every group of the payload. -/
theorem finish_of_ok (hsize : 0 < config.blockSize) {sink : Sink}
    (h : Carried D before config payload w) (hrun : finish D w = .ok sink w') :
    sink = w'.inner ∧ Represents D before config (config.groupsOf payload) [] [] w' ∧
      Sealed D config (config.groupsOf payload) := by
  obtain ⟨groups, pending, tail, hrep, hfull, htail, rfl, hsealed⟩ := h
  have hgroups := hfull.groupsOf hsize htail
  have hpending := hfull.pendingLength
  obtain ⟨⟨⟩, mid, hbuffer, hrun⟩ := Program.of_bind_ok hrun
  obtain ⟨⟨⟩, last, hflush, hget⟩ := Program.of_bind_ok hrun
  obtain ⟨rfl, rfl⟩ := EStateM.Result.ok.inj hget
  refine ⟨rfl, ?_⟩
  -- what is left for the flush, behind the closing of the buffer
  have hlast : ∀ {groups' : List (List Bytes)} {left : List Bytes},
      Represents D before config groups' left [] mid →
      Sealed D config groups' → left.length ≤ max 1 config.groupBlocks →
      Represents D before config (groups' ++ Chunks.chunks (max 1 config.groupBlocks) left)
        [] [] last ∧
        Sealed D config (groups' ++ Chunks.chunks (max 1 config.groupBlocks) left) := by
    intro groups' left hmid hdone hlen
    by_cases hnil : left = []
    · subst hnil
      rw [flushGroup_nil hmid] at hflush
      obtain ⟨-, rfl⟩ := EStateM.Result.ok.inj hflush
      rw [Chunks.chunks_nil, List.append_nil]
      exact ⟨hmid, hdone⟩
    · rw [Chunks.chunks_of_length_le (by omega) hnil hlen]
      exact flushGroup_of_ok hmid hnil hdone hflush
  rw [hgroups]
  by_cases hnil : tail = []
  · subst hnil
    rw [bufferBlock_nil hrep] at hbuffer
    obtain ⟨-, rfl⟩ := EStateM.Result.ok.inj hbuffer
    rw [if_pos rfl, List.append_nil]
    exact hlast hrep hsealed (Nat.le_of_lt hpending)
  · have hafter := bufferBlock_of_ok hrep hnil hsealed hbuffer
    have hlen : (pending ++ [tail]).length ≤ max 1 config.groupBlocks := by
      rw [List.length_append, List.length_singleton]
      omega
    rw [if_neg hnil]
    split at hafter
    · have hnext := hlast hafter.1 hafter.2 (Nat.zero_le _)
      rw [Chunks.chunks_nil, List.append_nil] at hnext
      rwa [Chunks.chunks_of_length_le (by omega) (by simp) hlen]
    · exact hlast hafter hsealed hlen

end Pgzf
