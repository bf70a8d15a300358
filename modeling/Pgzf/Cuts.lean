import Pgzf.Shifted

/-!
# How the payload is cut

A payload can be handed over in any number of `write` calls with `flush` calls among them, and its
blocks compressed in batches of any size. The groups that are written depend on none of this, so
neither do the operations the sink sees.
-/

namespace Pgzf

open PgzfWriter

variable {D : Deps} {before : Bytes} {config config' : PgzfConfig} {payload : Bytes}
  {w : PgzfWriter}

/-! ### Runs of calls -/

theorem call_accepted (hsize : 0 < config.blockSize) (hbatch : 0 < config.compressionBatchSize)
    {later : Bytes} {c : WriteCall} (hcompress : Compresses D config (payload ++ c.bytes ++ later))
    (h : Accepted D before config payload w) :
    ∃ w', call D c w = .ok () w' ∧ Accepted D before config (payload ++ c.bytes) w' := by
  cases c with
  | write buf =>
    rw [WriteCall.bytes] at hcompress ⊢
    obtain ⟨w', hwrite, hafter⟩ := write_accepted hsize hbatch hcompress h
    exact ⟨w', by rw [call, Program.bind_ok hwrite, Program.pure_apply], hafter⟩
  | flush => exact ⟨w, rfl, by rwa [WriteCall.bytes, List.append_nil]⟩

theorem calls_accepted (hsize : 0 < config.blockSize) (hbatch : 0 < config.compressionBatchSize)
    {calls : List WriteCall}
    (hcompress : Compresses D config (payload ++ calls.flatMap WriteCall.bytes))
    (h : Accepted D before config payload w) :
    ∃ answers w', (calls.mapM (call D)) w = .ok answers w' ∧
      Accepted D before config (payload ++ calls.flatMap WriteCall.bytes) w' := by
  induction calls generalizing w payload with
  | nil => exact ⟨[], w, rfl, by rwa [List.flatMap_nil, List.append_nil]⟩
  | cons c rest ih =>
    rw [List.flatMap_cons, ← List.append_assoc] at hcompress ⊢
    obtain ⟨mid, hcall, hmid⟩ := call_accepted hsize hbatch hcompress h
    obtain ⟨answers, w', hrest, hafter⟩ := ih hcompress hmid
    refine ⟨() :: answers, w', ?_, hafter⟩
    rw [Program.mapM_cons_apply, hcall]
    simp only [hrest]

theorem runCalls_represents (hsize : 0 < config.blockSize) (hallocated : config.blockSize < 2 ^ 63)
    (hbatch : 0 < config.compressionBatchSize) {calls : List WriteCall}
    (hcompress : Compresses D config (calls.flatMap WriteCall.bytes)) (before : Bytes) :
    ∃ w, runCalls D (Sink.atEnd before) config calls = .ok w.inner w ∧
      Represents D before config (config.groupsOf (calls.flatMap WriteCall.bytes)) [] [] w := by
  have hnew : Accepted D before config [] (started (Sink.atEnd before) config) :=
    ⟨[], [], [], represents_started before hallocated, full_nil config, hsize, rfl⟩
  obtain ⟨answers, mid, hcalls, hmid⟩ := calls_accepted hsize hbatch
    (show Compresses D config ([] ++ calls.flatMap WriteCall.bytes) by rwa [List.nil_append]) hnew
  rw [List.nil_append] at hmid
  obtain ⟨w, hfinish, hdone⟩ := finish_represents hsize hbatch hcompress hmid
  exact ⟨w, by rw [runCalls, onNew_eq hallocated, Program.bind_ok hcalls, hfinish], hdone⟩

theorem calls_of_empty {calls : List WriteCall} (h : calls.flatMap WriteCall.bytes = [])
    (w : PgzfWriter) :
    ∃ answers, (calls.mapM (call D)) w = .ok answers w := by
  induction calls with
  | nil => exact ⟨[], rfl⟩
  | cons c rest ih =>
    rw [List.flatMap_cons, List.append_eq_nil_iff] at h
    obtain ⟨answers, hrest⟩ := ih h.2
    have hcall : call D c w = .ok () w := by
      cases c with
      | write buf =>
        obtain rfl : buf = [] := h.1
        rfl
      | flush => rfl
    refine ⟨() :: answers, ?_⟩
    rw [Program.mapM_cons_apply, hcall]
    simp only [hrest]

theorem runCalls_of_empty (hallocated : config.blockSize < 2 ^ 63) {calls : List WriteCall}
    (h : calls.flatMap WriteCall.bytes = []) (before : Bytes) :
    ∃ w, runCalls D (Sink.atEnd before) config calls = .ok w.inner w ∧
      Represents D before config [] [] [] w := by
  have hnew := represents_started (D := D) before hallocated
  obtain ⟨answers, hcalls⟩ := calls_of_empty (D := D) h (started (Sink.atEnd before) config)
  refine ⟨_, ?_, hnew⟩
  rw [runCalls, onNew_eq hallocated, Program.bind_ok hcalls, finish,
    Program.bind_ok (bufferBlock_nil hnew),
    Program.bind_ok (flushGroup_nil hnew), Program.bind_ok (Program.get_apply _),
      Program.pure_apply]

/-- Groups that could be compressed once are compressed again, however the payload is cut. -/
theorem runCalls_of_sealed (hsize : 0 < config.blockSize) (hallocated : config.blockSize < 2 ^ 63)
    (hbatch : 0 < config.compressionBatchSize) {calls : List WriteCall}
    (hsealed : Sealed D config (config.groupsOf (calls.flatMap WriteCall.bytes)))
    (before : Bytes) :
    ∃ w, runCalls D (Sink.atEnd before) config calls = .ok w.inner w ∧
      Represents D before config (config.groupsOf (calls.flatMap WriteCall.bytes)) [] [] w := by
  by_cases hnil : calls.flatMap WriteCall.bytes = []
  · obtain ⟨w, hrun, hrep⟩ : ∃ w, runCalls D (Sink.atEnd before) config calls = .ok w.inner w ∧
        Represents D before config [] [] [] w := runCalls_of_empty hallocated hnil before
    refine ⟨w, hrun, ?_⟩
    rwa [hnil, PgzfConfig.groupsOf, PgzfConfig.blocksOf, Chunks.chunks_nil, Chunks.chunks_nil]
  · refine runCalls_represents hsize hallocated hbatch ?_ before
    obtain ⟨blocks, others, hgroups⟩ := List.exists_cons_of_ne_nil (groupsOf_ne_nil hsize hnil)
    intro data hdata
    rcases List.mem_cons.mp hdata with rfl | hdata
    · exact hsealed blocks (by rw [hgroups]; exact List.mem_cons_self) [] List.mem_cons_self
    · rw [← flatten_groupsOf] at hdata
      obtain ⟨group, hgroup, hmem⟩ := List.mem_flatten.mp hdata
      exact hsealed group hgroup data (List.mem_cons_of_mem _ hmem)

theorem runCalls_of_ok (hsize : 0 < config.blockSize) {calls : List WriteCall} {out : Sink}
    {w : PgzfWriter} (hrun : runCalls D (Sink.atEnd before) config calls = .ok out w) :
    out = w.inner ∧
      Represents D before config (config.groupsOf (calls.flatMap WriteCall.bytes)) [] [] w ∧
      Sealed D config (config.groupsOf (calls.flatMap WriteCall.bytes)) := by
  have hallocated := of_onNew_ok hrun
  rw [runCalls, onNew_eq hallocated] at hrun
  obtain ⟨answers, mid, hcalls, hfinish⟩ := Program.of_bind_ok hrun
  have hmid := calls_of_ok hsize (carried_started before hsize hallocated) hcalls
  rw [List.nil_append] at hmid
  exact finish_of_ok hsize hmid hfinish

/-! ### Two runs -/

theorem Moved.unique {s a b b' : Sink} (h : Moved s a b) (h' : Moved s a b') : b = b' := by
  obtain ⟨ops, rfl, rfl⟩ := h
  obtain ⟨ops', hops, rfl⟩ := h'
  have hlog := congrArg Sink.log hops
  simp only [Sink.after, Sink.atEnd, List.nil_append] at hlog
  rw [hlog]

theorem Represents.inner_eq (hlevel : config'.compressionLevel = config.compressionLevel)
    {groups : List (List Bytes)} {pending pending' : List Bytes} {tail tail' : Bytes}
    {w w' : PgzfWriter} (h : Represents D before config groups pending tail w)
    (h' : Represents D before config' groups pending' tail' w') : w'.inner = w.inner := by
  obtain ⟨⟨cursor, faults, log⟩, rest⟩ := w
  obtain ⟨⟨cursor', faults', log'⟩, rest'⟩ := w'
  obtain rfl : cursor = _ := h.cursor
  obtain rfl : cursor' = _ := h'.cursor
  obtain rfl : faults = _ := h.faults
  obtain rfl : faults' = _ := h'.faults
  obtain rfl : log = _ := h.log
  obtain rfl : log' = _ := h'.log
  rw [hlevel]

/-- The sink after `finish` depends on the payload, the block size, the group size and the level,
and not on how the payload was cut into calls nor on the batch size. -/
theorem output_of_any_cut (hblock : config'.blockSize = config.blockSize)
    (hgroup : config'.groupBlocks = config.groupBlocks)
    (hlevel : config'.compressionLevel = config.compressionLevel) (hsize : 1 ≤ config.blockSize)
    (hbatch : 1 ≤ config'.compressionBatchSize) {calls calls' : List WriteCall}
    (hpayload : calls'.flatMap WriteCall.bytes = calls.flatMap WriteCall.bytes) {s out : Sink}
    (hs : s.faults = []) (hrun : ∃ w, runCalls D s config calls = .ok out w) :
    ∃ w', runCalls D s config' calls' = .ok out w' := by
  obtain ⟨w, hrun⟩ := hrun
  have hends := ends_runCalls (D := D) hs config calls
  rw [hrun] at hends
  obtain ⟨empty, w₀, hrun₀, hmoved, -⟩ := hends.of_ok_right
  obtain ⟨rfl, hrep, hsealed⟩ := runCalls_of_ok hsize hrun₀
  have hgroups : config'.groupsOf (calls'.flatMap WriteCall.bytes) = config.groupsOf
      (calls.flatMap WriteCall.bytes) := by
    rw [hpayload, PgzfConfig.groupsOf, PgzfConfig.groupsOf, PgzfConfig.blocksOf,
      PgzfConfig.blocksOf, hblock, hgroup]
  have hsealed' : Sealed D config' (config'.groupsOf (calls'.flatMap WriteCall.bytes)) := by
    intro blocks hblocks
    rw [hgroups] at hblocks
    rw [hlevel]
    exact hsealed blocks hblocks
  have hsize' : 0 < config'.blockSize := by omega
  have hallocated' : config'.blockSize < 2 ^ 63 := by
    rw [hblock]
    exact of_onNew_ok hrun
  obtain ⟨w₁, hrun₁, hrep₁⟩ := runCalls_of_sealed hsize' hallocated' hbatch hsealed' []
  rw [hgroups] at hrep₁
  have hends₁ := ends_runCalls (D := D) hs config' calls'
  rw [hrun₁] at hends₁
  obtain ⟨out', w', hrun', hmoved', -⟩ := hends₁.of_ok
  rw [hrep.inner_eq hlevel hrep₁] at hmoved'
  exact ⟨w', by rw [hrun', hmoved.unique hmoved']⟩

def Stored.sampleCalls : List WriteCall :=
  [.write [97], .flush, .write [], .write [98, 99, 100, 101, 102, 103]]

theorem output_of_any_cut_sample : ∃ out,
    (∃ w, runCalls Stored.deps (Sink.atEnd [7]) Stored.sampleConfig
      [.write Stored.sampleBufs.flatten] = .ok out w) ∧
    ∃ w',
      runCalls Stored.deps (Sink.atEnd [7]) { Stored.sampleConfig with compressionBatchSize := 1 }
      Stored.sampleCalls = .ok out w' := by
  have hcompress : Compresses Stored.deps Stored.sampleConfig
      ([WriteCall.write Stored.sampleBufs.flatten].flatMap WriteCall.bytes) :=
        Stored.sample_codec.compresses
  obtain ⟨w, hrun, -⟩ := runCalls_represents (by decide) (by decide) (by decide) hcompress [7]
  have hpayload : Stored.sampleCalls.flatMap WriteCall.bytes =
      [WriteCall.write Stored.sampleBufs.flatten].flatMap WriteCall.bytes := by decide
  have hfaults : (Sink.atEnd [7]).faults = [] := rfl
  have hsize : 1 ≤ Stored.sampleConfig.blockSize := by decide
  refine ⟨w.inner, ⟨w, hrun⟩, ?_⟩
  apply output_of_any_cut _ _ _ hsize _ hpayload hfaults ⟨w, hrun⟩
  · rfl
  · rfl
  · rfl
  · decide

end Pgzf
