import Pgzf.Filling

/-!
# How a `write` ends

Each turn of the loop of `write` takes what there is room for. With a block size of at least one
there is room at the start of every turn, so the loop ends with the whole buffer taken, unless a
group it completes cannot be flushed; with a block size of zero there never is.
-/

namespace Pgzf

open PgzfWriter Program FaultPattern Chunks

variable {D : Deps} {config : PgzfConfig} {pending : List Bytes} {tail : Bytes} {w : PgzfWriter}

def Fault.IsPanic (fault : Fault) : Prop := ∃ message, fault = .panic message

/-! ### A full buffer -/

theorem spends_expect_flushGroup (h : OpenData config pending tail w) (hne : pending ≠ [])
    (message : String) :
    Spends faults (Prog.expect message (flushGroup D)) w (Flushable D config pending)
      (groupCost pending)
      (fun _ w' => OpenData config [] tail w') Fault.IsPanic := by
  have hopen : w.pendingBlocks ≠ [] := by
    intro hnil
    exact hne (h.pendingBlocks.symm.trans (by rw [hnil, List.map_nil]))
  by_cases hbatch : w.config.compressionBatchSize = 0
  · have hpanic : Prog.expect message (flushGroup D) w =
        .error (.panic "chunk size must be non-zero") w := by
      rw [Prog.expect, flushGroup_batchless hopen hbatch]
    refine spends_error hpanic (fun hall => ?_) ⟨_, rfl⟩
    rw [h.config_eq] at hbatch
    exact absurd hall.1.1 (Nat.not_lt.mpr (Nat.le_of_eq hbatch))
  · have hflush := spends_flushGroup (D := D) hopen (Nat.pos_of_ne_zero hbatch) (h.gcPending hne)
    rw [h.config_eq, h.pendingBlocks] at hflush
    apply (hflush.mono (fun _ _ hsame => h.flushed.sameOpen hsame) fun _ he => he).renamed
    · exact fun _ _ hok => Prog.expect_ok hok
    · intro fault s' herror hfault
      obtain ⟨e, rfl⟩ := hfault
      refine ⟨.panic message, ?_, message, rfl⟩
      rw [Prog.expect, herror]

/-- A block joins the open group, and where the group is full it is flushed. -/
theorem spends_bufferBlock (h : OpenData config pending tail w)
    (hpending : pending.length < max 1 config.groupBlocks) (hne : tail ≠ []) :
    Spends faults (bufferBlock D) w
      (AllFlushable D config (fulls (max 1 config.groupBlocks) (pending ++ [tail])))
      (groupsCost (fulls (max 1 config.groupBlocks) (pending ++ [tail])))
      (fun _ w' => OpenData config (leftover (max 1 config.groupBlocks) (pending ++ [tail])) [] w')
        Fault.IsPanic := by
  have hpos := one_le_groupSize config
  have hlen : (pending ++ [tail]).length = pending.length + 1 := List.length_append
  have hbuffer : w.bufferLen ≠ 0 := by
    rw [h.bufferLen]
    exact Nat.ne_of_gt (List.length_pos_iff.mpr hne)
  have hrun := bufferBlock_apply (D := D) hbuffer (by rw [h.config_eq]; exact h.allocated)
  rw [h.config_eq, h.blocksInGroup] at hrun
  by_cases hfull : config.groupBlocks ≤ pending.length + 1
  · have hgroup : (pending ++ [tail]).length = max 1 config.groupBlocks := by omega
    obtain ⟨hfulls, hleftover⟩ := fulls_of_length_eq hpos hgroup
    rw [if_pos hfull] at hrun
    rw [hfulls, hleftover]
    apply ((spends_expect_flushGroup h.moved (by simp) _).from hrun rfl).congr
    · exact List.forall_mem_singleton.symm
    · exact List.sum_singleton.symm
  · have hshort : (pending ++ [tail]).length < max 1 config.groupBlocks := by omega
    rw [if_neg hfull] at hrun
    rw [fulls_of_length_lt hpos hshort, leftover_of_length_lt hpos hshort]
    exact spends_ok hrun (allFlushable_nil D config) (clean_zero _) rfl h.moved

/-! ### The loop -/

theorem OpenData.writeLoop_filled (h : OpenData config pending tail w)
    (hroom : tail.length ≤ config.blockSize) {buf piece : Bytes} {consumed : Nat}
    (hmore : consumed < buf.length)
    (hpiece : (buf.drop consumed).take (config.blockSize - tail.length) = piece) (fuel : Nat) :
    writeLoop D buf (fuel + 1) consumed w = (do
      if tail.length + piece.length = config.blockSize then
        bufferBlock D
      writeLoop D buf fuel (consumed + piece.length) : Prog PgzfWriter Nat) (w.filled piece) := by
  obtain rfl := h.config_eq
  rw [← h.bufferLen] at hroom hpiece ⊢
  exact Pgzf.writeLoop_filled h.buffer_length hroom hmore hpiece fuel

/-- The loop completes the groups of the data, and holds what is left over. -/
theorem spends_writeLoop (hsize : 0 < config.blockSize) {buf : Bytes} {fuel consumed : Nat}
    (hle : consumed ≤ buf.length) (hfuel : buf.length < consumed + fuel)
    (h : OpenData config pending tail w) (hpending : pending.length < max 1 config.groupBlocks)
    (htail : tail.length < config.blockSize) :
    Spends faults (writeLoop D buf fuel consumed) w
      (AllFlushable D config (completedGroups config pending tail (buf.drop consumed)))
      (groupsCost (completedGroups config pending tail (buf.drop consumed)))
      (fun n w' => n = buf.length ∧
        OpenData config (openBlocks config pending tail (buf.drop consumed))
          (openTail config tail (buf.drop consumed)) w')
      Fault.IsPanic := by
  induction fuel generalizing consumed pending tail w with
  | zero => omega
  | succ fuel ih =>
    rcases Nat.eq_or_lt_of_le hle with rfl | hmore
    · -- nothing is left to take
      have hend : (tail ++ buf.drop buf.length).length < config.blockSize := by
        rwa [List.drop_length, List.append_nil]
      obtain ⟨hgroups, hblocks, hrest⟩ := completed_of_lt hpending hend
      rw [hgroups, hblocks, hrest, List.drop_length, List.append_nil]
      have hstop : writeLoop D buf (fuel + 1) buf.length w = .ok buf.length w := by
        rw [writeLoop, if_neg (Nat.lt_irrefl _), pure_apply]
      exact spends_ok hstop (allFlushable_nil D config) (clean_zero _) rfl ⟨rfl, h⟩
    · obtain ⟨piece, hpiece⟩ : ∃ piece, (buf.drop consumed).take (config.blockSize - tail.length) =
        piece := ⟨_, rfl⟩
      have hlen : piece.length = min (config.blockSize - tail.length) (buf.length - consumed) := by
        rw [← hpiece, List.length_take, List.length_drop]
      have hpos : 0 < piece.length := by omega
      have hsplit : buf.drop consumed = piece ++ buf.drop (consumed + piece.length) := by
        have htake : (buf.drop consumed).take piece.length = piece := by
          rw [hlen, ← List.length_drop, ← List.take_eq_take_min, hpiece]
        rw [← List.drop_drop]
        conv_lhs => rw [← List.take_append_drop piece.length (buf.drop consumed), htake]
      have hfilled := h.filled (show tail.length + piece.length ≤ config.blockSize by omega)
      have hturn := h.writeLoop_filled (D := D) (Nat.le_of_lt htail) hmore hpiece fuel
      rw [hsplit]
      by_cases hfull : tail.length + piece.length = config.blockSize
      · -- the buffer is full
        rw [if_pos hfull] at hturn
        have hblock : (tail ++ piece).length = config.blockSize := by rwa [List.length_append]
        obtain ⟨hgroups, hblocks, hrest⟩ :=
          completed_of_full hsize hblock pending (buf.drop (consumed + piece.length))
        have hne : tail ++ piece ≠ [] :=
          List.append_ne_nil_of_right_ne_nil _ (List.ne_nil_of_length_pos hpos)
        have hleft := length_leftover_lt (one_le_groupSize config) (pending ++ [tail ++ piece])
        obtain ⟨hcut, hkeep⟩ := completed_front config (pending ++ [tail ++ piece]) []
          (buf.drop (consumed + piece.length))
        rw [hgroups, hblocks, hrest, hcut, hkeep]
        apply Spends.congr _ allFlushable_append.symm (groupsCost_append _ _).symm
        apply Spends.from _ hturn rfl
        exact (spends_bufferBlock hfilled hpending hne).bind fun _ _ hnext =>
          ih (by omega) (by omega) hnext hleft hsize
      · rw [if_neg hfull] at hturn
        have hshort : (tail ++ piece).length < config.blockSize := by
          rw [List.length_append]
          omega
        have hrest : Spends faults (writeLoop D buf fuel (consumed + piece.length))
            (w.filled piece) _ _ _ _ :=
          ih (by omega) (by omega) hfilled hpending hshort
        rw [completedGroups, openBlocks, openTail, List.append_assoc] at hrest
        exact hrest.from hturn rfl

theorem writeLoop_diverges (hsize : config.blockSize = 0) {buf : Bytes} {consumed : Nat}
    (hmore : consumed < buf.length) (h : OpenData config pending [] w) (turns : Nat) :
    ∃ w', writeLoop D buf turns consumed w = .error .diverges w' := by
  induction turns generalizing w with
  | zero => exact ⟨w, rfl⟩
  | succ turns ih =>
    have hpiece : (buf.drop consumed).take (config.blockSize - ([] : Bytes).length) = [] := by
      rw [hsize, List.length_nil, List.take_zero]
    have hturn := h.writeLoop_filled (D := D) (Nat.zero_le _) hmore hpiece turns
    have hfilled := h.filled (show ([] : Bytes).length + ([] : Bytes).length ≤ config.blockSize
      from Nat.zero_le _)
    have hfull : ([] : Bytes).length + ([] : Bytes).length = config.blockSize := hsize.symm
    rw [if_pos hfull, bind_ok (bufferBlock_empty hfilled.bufferLen)] at hturn
    rw [hturn]
    exact ih hfilled

/-! ### Calls -/

section Calls

variable {c : WriteCall} {calls : List WriteCall}

theorem spends_call (hsize : 0 < config.blockSize) (h : OpenData config pending tail w)
    (hpending : pending.length < max 1 config.groupBlocks) (htail : tail.length < config.blockSize)
    (c : WriteCall) :
    Spends faults (call D c) w (AllFlushable D config (completedGroups config pending tail c.bytes))
      (groupsCost (completedGroups config pending tail c.bytes))
      (fun _ w' => OpenData config (openBlocks config pending tail c.bytes)
        (openTail config tail c.bytes) w') Fault.IsPanic := by
  cases c with
  | write buf =>
    apply Spends.congr _ (and_iff_left trivial) (Nat.add_zero _)
    refine (spends_writeLoop hsize (Nat.zero_le _) (by omega) h hpending htail).bind
      fun _ _ hafter => ?_
    exact spends_free rfl rfl hafter.2
  | flush =>
    have hend : (tail ++ WriteCall.flush.bytes).length < config.blockSize := by
      rwa [WriteCall.bytes, List.append_nil]
    obtain ⟨hgroups, hblocks, hrest⟩ := completed_of_lt hpending hend
    rw [hgroups, hblocks, hrest, WriteCall.bytes, List.append_nil]
    exact spends_ok rfl (allFlushable_nil D config) (clean_zero _) rfl h

/-- Where each call completes the groups of its data,
the calls complete the groups of all the data. -/
theorem spends_mapM_calls (hsize : 0 < config.blockSize) {α : Type}
    {op : WriteCall → Prog PgzfWriter α}
    (hop : ∀ {pending tail w}, OpenData config pending tail w →
      pending.length < max 1 config.groupBlocks → tail.length < config.blockSize →
      ∀ c,
      Spends faults (op c) w (AllFlushable D config (completedGroups config pending tail c.bytes))
      (groupsCost (completedGroups config pending tail c.bytes)) (fun _ w' => OpenData config
      (openBlocks config pending tail c.bytes) (openTail config tail c.bytes) w') Fault.IsPanic)
    (h : OpenData config pending tail w) (hpending : pending.length < max 1 config.groupBlocks)
    (htail : tail.length < config.blockSize) (calls : List WriteCall) :
    Spends faults (calls.mapM op) w
      (AllFlushable D config (completedGroups config pending tail (calls.flatMap WriteCall.bytes)))
      (groupsCost (completedGroups config pending tail (calls.flatMap WriteCall.bytes)))
      (fun _ w' => OpenData config (openBlocks config pending tail (calls.flatMap WriteCall.bytes))
        (openTail config tail (calls.flatMap WriteCall.bytes)) w') Fault.IsPanic := by
  induction calls generalizing pending tail w with
  | nil =>
    have hend : (tail ++ ([] : List WriteCall).flatMap WriteCall.bytes).length <
        config.blockSize := by
      rwa [List.flatMap_nil, List.append_nil]
    obtain ⟨hgroups, hblocks, hrest⟩ := completed_of_lt hpending hend
    rw [hgroups, hblocks, hrest, List.flatMap_nil, List.append_nil]
    exact spends_ok rfl (allFlushable_nil D config) (clean_zero _) rfl h
  | cons c rest ih =>
    obtain ⟨hgroups, hblocks, hrest⟩ :=
      completed_append hsize pending tail c.bytes (rest.flatMap WriteCall.bytes)
    rw [List.flatMap_cons, hgroups, hblocks, hrest, List.mapM_cons]
    apply Spends.congr _ allFlushable_append.symm (groupsCost_append _ _).symm
    refine (hop h hpending htail c).bind fun _ mid hmid => ?_
    apply Spends.congr _ (and_iff_left trivial) (Nat.add_zero _)
    exact (ih hmid (length_openBlocks_lt _ _ _ _) (length_openTail_lt hsize _ _)).bind
        fun _ _ hlast =>
      spends_free rfl rfl hlast

/-- Calls that end with a block size of zero have handed over nothing. -/
theorem calls_of_ok_of_blockless (hsize : config.blockSize = 0) (h : OpenData config [] [] w)
    {answers : List Unit} {w' : PgzfWriter} (hrun : (calls.mapM (call D)) w = .ok answers w') :
    w' = w := by
  induction calls generalizing w answers with
  | nil => exact (EStateM.Result.ok.inj hrun).2.symm
  | cons c rest ih =>
    rw [List.mapM_cons] at hrun
    obtain ⟨⟨⟩, mid, hcall, hrun⟩ := of_bind_ok hrun
    obtain ⟨others, last, hrest, hpure⟩ := of_bind_ok hrun
    obtain ⟨-, rfl⟩ := EStateM.Result.ok.inj hpure
    have hsame : mid = w := by
      cases c with
      | flush => exact (EStateM.Result.ok.inj hcall).2.symm
      | write buf =>
        obtain ⟨n, next, hwrite, hpure⟩ := of_bind_ok hcall
        obtain ⟨-, rfl⟩ := EStateM.Result.ok.inj hpure
        rcases List.eq_nil_or_concat buf with rfl | hne
        · exact (EStateM.Result.ok.inj hwrite).2.symm
        · have hmore : 0 < buf.length := by
            obtain ⟨front, last, rfl⟩ := hne
            simp
          obtain ⟨stuck, hdiverges⟩ := writeLoop_diverges (D := D) hsize hmore h (buf.length + 1)
          exact absurd (hwrite.symm.trans hdiverges) (by simp)
    subst hsame
    exact ih h hrest

end Calls

/-! ### Where a `write` ends -/

namespace PgzfWriter

def held (w : PgzfWriter) : Bytes :=
  (w.pendingBlocks.map PendingBlock.data).flatten ++ w.buffer.take w.bufferLen

def completedBy (w : PgzfWriter) (buf : Bytes) : List (List Bytes) :=
  completedGroups w.config (w.pendingBlocks.map PendingBlock.data) (w.buffer.take w.bufferLen) buf

end PgzfWriter

theorem OpenData.held_eq (h : OpenData config pending tail w) :
    w.held = pending.flatten ++ tail := by
  rw [held, h.pendingBlocks, h.buffer]

theorem OpenData.completedBy_eq (h : OpenData config pending tail w) (buf : Bytes) :
    w.completedBy buf = completedGroups config pending tail buf := by
  rw [completedBy, h.config_eq, h.pendingBlocks, h.buffer]

/-- The `write` ends and takes its whole buffer: each byte is in a group it completed, or held. -/
def TakesAll (D : Deps) (w : PgzfWriter) (buf : Bytes) : Prop :=
  ∃ w', write D buf w = .ok buf.length w' ∧
    (w.completedBy buf).flatten.flatten ++ w'.held = w.held ++ buf

theorem allFlushable_iff (hbatch : 0 < config.compressionBatchSize) (groups : List (List Bytes)) :
    AllFlushable D config groups ↔ Sealed D config groups :=
  ⟨fun h blocks hblocks => (h blocks hblocks).2, fun h blocks hblocks => ⟨hbatch, h blocks hblocks⟩⟩

theorem OpenData.takesAll_iff (h : OpenData config pending tail w) (hsize : 0 < config.blockSize)
    (hpending : pending.length < max 1 config.groupBlocks) (htail : tail.length < config.blockSize)
    (hfaults : w.faults = []) (buf : Bytes) :
    TakesAll D w buf ↔ AllFlushable D config (w.completedBy buf) := by
  have hwrite : Spends faults (write D buf) w _ _ _ _ :=
    spends_writeLoop hsize (Nat.zero_le _) (by omega) h hpending htail
  rw [List.drop_zero] at hwrite
  rw [TakesAll, h.completedBy_eq, h.held_eq]
  constructor
  · intro htakes
    obtain ⟨w', hrun, -⟩ := htakes
    exact (hwrite.of_ok hrun).1
  · intro hall
    obtain ⟨n, w', hrun, -, rfl, hafter⟩ :=
      hwrite.exists_ok hall (by rw [hfaults]; exact clean_nil _)
    refine ⟨w', hrun, ?_⟩
    rw [hafter.held_eq, ← List.append_assoc, ← List.flatten_append, completed_flatten hsize,
      List.append_assoc]

/-- Behind calls on a sink that does not fail, a `write` ends with its
whole buffer taken exactly when there is nothing to take, or the block
size is at least one and the groups it completes can be compressed. -/
theorem write_ends_iff (D : Deps) {builder : List BuilderCall} {config : PgzfConfig}
    (hbuild : PgzfConfig.build builder = .ok config) {s : Sink} (hs : s.faults = [])
    {w₀ : PgzfWriter} (hstart : withConfig s config = .ok () w₀) {calls : List WriteCall}
    {answers : List Unit} {w : PgzfWriter} (hrun : (calls.mapM (call D)) w₀ = .ok answers w)
    (buf : Bytes) :
    (TakesAll D w buf ↔ buf = [] ∨ 1 ≤ w.config.blockSize ∧ Sealed D w.config (w.completedBy buf)) ∧
      (w.config.blockSize = 0 → buf ≠ [] → ∀ turns, ∃ w',
        writeLoop D buf turns 0 w = .error .diverges w') := by
  have hbatch := PgzfConfig.build_compressionBatchSize_pos hbuild
  obtain ⟨hallocated, rfl⟩ := of_withConfig_ok hstart
  have hnew := openData_started s hallocated
  have hfaults : (started s config).faults = [] := by
    obtain ⟨cursor, pattern, log⟩ := s
    obtain rfl : pattern = [] := hs
    rfl
  rcases Nat.eq_zero_or_pos config.blockSize with hsize | hsize
  · obtain rfl := calls_of_ok_of_blockless hsize hnew hrun
    rw [hnew.config_eq]
    have hstuck : ∀ buf : Bytes, buf ≠ [] → ∀ turns, ∃ w',
        writeLoop D buf turns 0 (started s config) = .error .diverges w' :=
      fun buf hne turns => writeLoop_diverges hsize (List.length_pos_iff.mpr hne) hnew turns
    refine ⟨?_, fun _ => hstuck buf⟩
    constructor
    · intro htakes
      obtain ⟨w', hwrite, -⟩ := htakes
      by_contra hnot
      obtain ⟨stuck, hdiverges⟩ := hstuck buf (fun hnil => hnot (.inl hnil)) (buf.length + 1)
      exact absurd (hwrite.symm.trans hdiverges) (by simp)
    · intro hends
      rcases hends with rfl | ⟨hpos, -⟩
      · refine ⟨_, rfl, ?_⟩
        rw [hnew.completedBy_eq, completedGroups, hsize]
        rfl
      · omega
  · have hcalls := spends_mapM_calls hsize (spends_call (D := D) hsize) hnew
      (one_le_groupSize config) hsize calls
    obtain ⟨-, -, hdrop, hopen⟩ := hcalls.of_ok hrun
    rw [hfaults, List.drop_nil] at hdrop
    have hiff := hopen.takesAll_iff (D := D) hsize (length_openBlocks_lt _ _ _ _)
      (length_openTail_lt hsize _ _) hdrop buf
    rw [hopen.config_eq]
    refine ⟨?_, fun hzero => absurd hzero (Nat.ne_of_gt hsize)⟩
    rw [hiff, allFlushable_iff hbatch]
    refine ⟨fun hsealed => .inr ⟨hsize, hsealed⟩, ?_⟩
    intro hends
    rcases hends with rfl | ⟨-, hsealed⟩
    · have hend : (openTail config [] (calls.flatMap WriteCall.bytes) ++ []).length <
          config.blockSize := by
        rw [List.append_nil]
        exact length_openTail_lt hsize _ _
      rw [hopen.completedBy_eq, (completed_of_lt (length_openBlocks_lt _ _ _ _) hend).1]
      exact fun blocks hmem => absurd hmem List.not_mem_nil
    · exact hsealed

theorem write_ends_iff_sample : ∃ config w₀ answers w,
    PgzfConfig.build [.blockSize 2, .groupBlocks 1] = .ok config ∧
      withConfig (Sink.atEnd []) config = .ok () w₀ ∧
      ([.write [97]].mapM (call Stored.deps)) w₀ = .ok answers w ∧
        TakesAll Stored.deps w [98, 99] := by
  obtain ⟨config, hbuild, hsizes⟩ : ∃ config, PgzfConfig.build [.blockSize 2, .groupBlocks 1] =
    .ok config ∧
      config.blockSize = 2 ∧ config.groupBlocks = 1 := ⟨_, rfl, rfl, rfl⟩
  have hstart :=
    withConfig_ok (show config.blockSize < 2 ^ 63 by rw [hsizes.1]; decide) (Sink.atEnd [])
  obtain ⟨answers, w, hrun, hcompleted⟩ : ∃ answers w,
      ([.write [97]].mapM (call Stored.deps)) (started (Sink.atEnd []) config) = .ok answers w ∧
        w.config.blockSize = 2 ∧ w.completedBy [98, 99] = [[[97, 98]]] := by
    obtain rfl := Except.ok.inj hbuild
    exact ⟨_, _, rfl, by decide, by decide⟩
  refine ⟨config, _, answers, w, hbuild, hstart, hrun,
    (write_ends_iff Stored.deps hbuild rfl hstart hrun [98, 99]).1.mpr (.inr ⟨?_, ?_⟩)⟩
  · rw [hcompleted.1]
    decide
  rw [hcompleted.2]
  intro blocks hblocks data hdata
  obtain rfl : blocks = [[97, 98]] := List.mem_singleton.mp hblocks
  have hshort : data.length < 2 ^ 16 := by
    rcases List.mem_cons.mp hdata with rfl | hdata
    · decide
    · rw [List.mem_singleton.mp hdata]
      decide
  exact ⟨_, Stored.compressBlock_eq _ hshort⟩

/-- A block size of zero and one byte: the loop has no end. -/
theorem zero_block_size_diverges : ∃ config w₀,
    PgzfConfig.build [.blockSizeMb 0] = .ok config ∧ withConfig (Sink.atEnd []) config = .ok () w₀ ∧
      (∀ turns, ∃ w', writeLoop Stored.deps [1] turns 0 w₀ = .error .diverges w') ∧
      ¬ TakesAll Stored.deps w₀ [1] := by
  obtain ⟨config, hbuild, hsize⟩ : ∃ config, PgzfConfig.build [.blockSizeMb 0] = .ok config ∧
      config.blockSize = 0 := ⟨_, rfl, rfl⟩
  have hallocated : config.blockSize < 2 ^ 63 := by
    rw [hsize]
    decide
  have hstuck : ∀ turns, ∃ w', writeLoop Stored.deps [1] turns 0 (started (Sink.atEnd []) config) =
      .error .diverges w' :=
    writeLoop_diverges hsize Nat.one_pos (openData_started (Sink.atEnd []) hallocated)
  refine ⟨config, _, hbuild, withConfig_ok hallocated _, hstuck, fun htakes => ?_⟩
  obtain ⟨w', hwrite, -⟩ := htakes
  obtain ⟨stuck, hdiverges⟩ := hstuck 2
  exact absurd (hwrite.symm.trans hdiverges) (by simp)

end Pgzf
