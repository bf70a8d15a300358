import Pgzf.WriteEnds

/-!
# Failures of the sink

`finish` reports what its own flush of the last group reports. Every other group is flushed when its
last block joins it, behind an `expect`, and there any failure is a panic, in `write` and in
`finish` alike.
-/

namespace Pgzf

open PgzfWriter Program FaultPattern Chunks

variable {D : Deps} {config : PgzfConfig} {pending : List Bytes} {tail : Bytes} {w : PgzfWriter}

/-! ### Runs whose calls are all answered -/

/-- Make the calls, and `finish`, whatever they return; only a panic ends the run. -/
def runAnswered (D : Deps) (calls : List WriteCall) : Prog PgzfWriter (Except PgzfError Sink) := do
  let _ ← calls.mapM fun c => Prog.attempt (call D c)
  Prog.attempt (finish D)

def Unfailed (w w' : PgzfWriter) : Prop := ∃ n, Clean w.faults n ∧ w'.faults = w.faults.drop n

theorem Unfailed.trans {w₁ w₂ w₃ : PgzfWriter} (h : Unfailed w₁ w₂) (h' : Unfailed w₂ w₃) :
    Unfailed w₁ w₃ := by
  obtain ⟨m, hclean, hfaults⟩ := h
  obtain ⟨n, hclean', hfaults'⟩ := h'
  rw [hfaults] at hclean' hfaults'
  exact ⟨m + n, clean_add.mpr ⟨hclean, hclean'⟩, hfaults'.trans List.drop_drop⟩

/-- Every call is answered, and `finish` with the
sink only where none of its operations has failed. -/
def ReportsFailures (D : Deps) (w₀ : PgzfWriter) (calls : List WriteCall) : Prop :=
  ∃ answer w, runAnswered D calls w₀ = .ok answer w ∧ ∀ out, answer = .ok out → Unfailed w₀ w

def PgzfConfig.fullGroups (config : PgzfConfig) (payload : Bytes) : List (List Bytes) :=
  (config.groupsOf payload).filter fun blocks => blocks.length = max 1 config.groupBlocks

theorem spends_attempt {α : Type} {m : Prog PgzfWriter α} {c : Prop} {n : Nat}
    {Q : PgzfWriter → Prop} (h : Spends faults m w c n (fun _ w' => Q w') Fault.IsPanic) :
    Spends faults (Prog.attempt m) w c n (fun _ w' => Q w') Fault.IsPanic := by
  cases hrun : m w with
  | ok a w' =>
    obtain ⟨hc, hclean, hfaults, hQ⟩ := h.of_ok hrun
    exact spends_ok (Prog.attempt_ok hrun) hc hclean hfaults hQ
  | error fault w' =>
    obtain ⟨hnot, message, rfl⟩ := h.of_error hrun
    exact spends_error (by rw [Prog.attempt, hrun]) hnot ⟨message, rfl⟩

/-! ### The end of a run -/

theorem spends_lastBlock (h : OpenData config pending tail w)
    (hpending : pending.length < max 1 config.groupBlocks)
    (htail : tail.length < config.blockSize) :
    Spends faults (bufferBlock D) w
      (AllFlushable D config
        (fulls (max 1 config.groupBlocks) (pending ++ chunks config.blockSize tail)))
      (groupsCost (fulls (max 1 config.groupBlocks) (pending ++ chunks config.blockSize tail)))
      (fun _ w' => OpenData config
        (leftover (max 1 config.groupBlocks) (pending ++ chunks config.blockSize tail)) [] w')
      Fault.IsPanic := by
  have hsize := Nat.zero_lt_of_lt htail
  have hpos := one_le_groupSize config
  rcases List.eq_nil_or_concat tail with rfl | hne
  · rw [chunks_nil, List.append_nil, fulls_of_length_lt hpos hpending,
      leftover_of_length_lt hpos hpending]
    exact spends_ok (bufferBlock_empty h.bufferLen) (allFlushable_nil D config) (clean_zero _) rfl h
  · have hopen : tail ≠ [] := by
      obtain ⟨front, last, rfl⟩ := hne
      simp
    rw [chunks_of_length_le hsize hopen (Nat.le_of_lt htail)]
    exact spends_bufferBlock h hpending hopen

def PgzfWriter.closing (D : Deps) : Prog PgzfWriter Sink := do
  flushGroup D
  return (← get).inner

theorem closing_reports (h : OpenData config pending [] w)
    (hready : pending = [] ∨ 0 < config.compressionBatchSize) :
    (∃ out w', closing D w = .ok out w' ∧ Unfailed w w') ∨
      ∃ e w', closing D w = .error (.error e) w' := by
  by_cases hopen : w.pendingBlocks = []
  · refine .inl ⟨w.inner, w, ?_, 0, clean_zero _, rfl⟩
    rw [closing, bind_ok (flushGroup_closed hopen), bind_ok (get_apply _), pure_apply]
  · have hne : pending ≠ [] :=
      fun hnil => hopen (List.map_eq_nil_iff.mp (h.pendingBlocks.trans hnil))
    have hbatch := hready.resolve_left hne
    rw [← h.config_eq] at hbatch
    have hflush := spends_flushGroup (D := D) hopen hbatch (h.gcPending hne)
    cases hrun : flushGroup D w with
    | ok a w' =>
      obtain ⟨-, hclean, hfaults, -⟩ := hflush.of_ok hrun
      refine .inl ⟨w'.inner, w', ?_, _, hclean, hfaults⟩
      rw [closing, bind_ok hrun, bind_ok (get_apply _), pure_apply]
    | error fault w' =>
      obtain ⟨-, e, rfl⟩ := hflush.of_error hrun
      exact .inr ⟨e, w', bind_error hrun⟩

theorem closing_panics (h : OpenData config pending [] w) (hne : pending ≠ [])
    (hbatch : config.compressionBatchSize = 0) :
    ∃ message w', closing D w = .error (.panic message) w' := by
  have hopen : w.pendingBlocks ≠ [] :=
    fun hnil => hne (h.pendingBlocks.symm.trans (by rw [hnil, List.map_nil]))
  rw [← h.config_eq] at hbatch
  exact ⟨_, w, bind_error (flushGroup_batchless hopen hbatch)⟩

/-- `finish` is answered exactly where the flush of
a group that the last block fills does not fail. -/
theorem finish_answered_iff (h : OpenData config pending tail w)
    (hpending : pending.length < max 1 config.groupBlocks)
    (htail : tail.length < config.blockSize) :
    (∃ answer w', Prog.attempt (finish D) w = .ok answer w') ↔
      (AllFlushable D config
        (fulls (max 1 config.groupBlocks) (pending ++ chunks config.blockSize tail)) ∧
        Clean w.faults (groupsCost
          (fulls (max 1 config.groupBlocks) (pending ++ chunks config.blockSize tail)))) ∧
      (leftover (max 1 config.groupBlocks) (pending ++ chunks config.blockSize tail) = [] ∨
        0 < config.compressionBatchSize) := by
  have hlast := spends_lastBlock (D := D) h hpending htail
  have hfinish : finish D = bufferBlock D >>= fun _ => closing D := rfl
  rw [hfinish]
  constructor
  · intro hanswered
    obtain ⟨answer, w', hrun⟩ := hanswered
    cases hblock : bufferBlock D w with
    | error fault mid =>
      obtain ⟨-, message, rfl⟩ := hlast.of_error hblock
      rw [Prog.attempt, bind_error hblock] at hrun
      exact absurd hrun (by simp)
    | ok a mid =>
      obtain ⟨hall, hclean, -, hopen⟩ := hlast.of_ok hblock
      refine ⟨⟨hall, hclean⟩, ?_⟩
      by_contra hnot
      obtain ⟨hne, hbatch⟩ := not_or.mp hnot
      obtain ⟨message, last, hpanic⟩ :=
        closing_panics (D := D) hopen hne (Nat.eq_zero_of_not_pos hbatch)
      rw [Prog.attempt, bind_ok hblock, hpanic] at hrun
      exact absurd hrun (by simp)
  · intro hflushes
    obtain ⟨⟨hall, hclean⟩, hready⟩ := hflushes
    obtain ⟨_, mid, hblock, -, hopen⟩ := hlast.exists_ok hall hclean
    rcases closing_reports (D := D) hopen hready with ⟨out, w', hclose, -⟩ | ⟨e, w', hclose⟩
    · exact ⟨.ok out, w', Prog.attempt_ok ((bind_ok hblock).trans hclose)⟩
    · exact ⟨.error e, w', Prog.attempt_error ((bind_ok hblock).trans hclose)⟩

theorem finish_unfailed (h : OpenData config pending tail w)
    (hpending : pending.length < max 1 config.groupBlocks) (htail : tail.length < config.blockSize)
    {out : Sink} {w' : PgzfWriter} (hrun : finish D w = .ok out w') : Unfailed w w' := by
  obtain ⟨⟨⟩, mid, hblock, hclose⟩ :=
    of_bind_ok (show (bufferBlock D >>= fun _ => closing D) w = .ok out w' from hrun)
  obtain ⟨-, hclean, hfaults, hopen⟩ := (spends_lastBlock (D := D) h hpending htail).of_ok hblock
  by_cases hready : leftover (max 1 config.groupBlocks) (pending ++ chunks config.blockSize tail) =
    [] ∨
      0 < config.compressionBatchSize
  · rcases closing_reports (D := D) hopen hready with ⟨out', last, hclose', hrest⟩ | ⟨e,
      last, hclose'⟩
    · obtain ⟨-, rfl⟩ := EStateM.Result.ok.inj (hclose.symm.trans hclose')
      exact .trans ⟨_, hclean, hfaults⟩ hrest
    · exact absurd (hclose.symm.trans hclose') (by simp)
  · obtain ⟨hne, hbatch⟩ := not_or.mp hready
    obtain ⟨message, last, hpanic⟩ :=
      closing_panics (D := D) hopen hne (Nat.eq_zero_of_not_pos hbatch)
    exact absurd (hclose.symm.trans hpanic) (by simp)

/-! ### Runs -/

/-- The full groups are those that the calls complete, and one that the last block may fill. -/
theorem fullGroups_eq (hsize : 0 < config.blockSize) (payload : Bytes) :
    config.fullGroups payload = completedGroups config [] [] payload ++
        fulls (max 1 config.groupBlocks) (openBlocks config [] [] payload ++
          chunks config.blockSize (openTail config [] payload)) ∧
      leftover (max 1 config.groupBlocks) (config.blocksOf payload) =
        leftover (max 1 config.groupBlocks) (openBlocks config [] [] payload ++
          chunks config.blockSize (openTail config [] payload)) := by
  have hpos := one_le_groupSize config
  have htail : chunks config.blockSize (leftover config.blockSize payload) =
      if leftover config.blockSize payload = [] then []
          else [leftover config.blockSize payload] := by
    have hlt := length_leftover_lt hsize payload
    by_cases hnil : leftover config.blockSize payload = []
    · rw [if_pos hnil, hnil, chunks_nil]
    · rw [if_neg hnil, chunks_of_length_le hsize hnil (Nat.le_of_lt hlt)]
  have hblocks : config.blocksOf payload =
      fulls config.blockSize payload ++ chunks config.blockSize
          (leftover config.blockSize payload) := by
    rw [PgzfConfig.blocksOf, chunks_eq_fulls hsize, htail]
  have hfull : config.fullGroups payload = fulls (max 1 config.groupBlocks)
    (config.blocksOf payload) := rfl
  rw [hfull, hblocks, fulls_append hpos, leftover_append hpos]
  exact ⟨rfl, rfl⟩

theorem payload_eq_nil (hsize : 0 < config.blockSize) {payload : Bytes}
    (hfull : config.fullGroups payload = [])
    (hrest : leftover (max 1 config.groupBlocks) (config.blocksOf payload) = []) :
    payload = [] := by
  have hgroups := flatten_fulls_append_leftover (one_le_groupSize config) (config.blocksOf payload)
  have hnone : fulls (max 1 config.groupBlocks) (config.blocksOf payload) = [] := hfull
  rw [hnone, hrest, List.flatten_nil, List.append_nil] at hgroups
  rw [← flatten_chunks hsize payload, ← PgzfConfig.blocksOf, ← hgroups, List.flatten_nil]

section

variable {w₀ : PgzfWriter}

theorem spends_answered (hsize : 0 < config.blockSize) (hnew : OpenData config [] [] w₀)
    (calls : List WriteCall) :
    Spends faults (calls.mapM fun c => Prog.attempt (call D c)) w₀
      (AllFlushable D config (completedGroups config [] [] (calls.flatMap WriteCall.bytes)))
      (groupsCost (completedGroups config [] [] (calls.flatMap WriteCall.bytes)))
      (fun _ w' => OpenData config (openBlocks config [] [] (calls.flatMap WriteCall.bytes))
        (openTail config [] (calls.flatMap WriteCall.bytes)) w') Fault.IsPanic :=
  spends_mapM_calls hsize (fun h hpending htail c =>
    spends_attempt (spends_call hsize h hpending htail c))
    hnew (one_le_groupSize config) hsize calls

/-- A run is answered exactly where no flush of a full group fails, and the last flush is not given
a batch size of zero. -/
theorem runAnswered_iff (hsize : 0 < config.blockSize) (hnew : OpenData config [] [] w₀)
    (calls : List WriteCall) :
    (∃ answer w, runAnswered D calls w₀ = .ok answer w) ↔
      (AllFlushable D config (config.fullGroups (calls.flatMap WriteCall.bytes)) ∧
        Clean w₀.faults (groupsCost (config.fullGroups (calls.flatMap WriteCall.bytes)))) ∧
      (leftover (max 1 config.groupBlocks) (config.blocksOf (calls.flatMap WriteCall.bytes)) = [] ∨
        0 < config.compressionBatchSize) := by
  have hcalls := spends_answered (D := D) hsize hnew calls
  have hblocks := length_openBlocks_lt config [] [] (calls.flatMap WriteCall.bytes)
  have htail := length_openTail_lt hsize [] (calls.flatMap WriteCall.bytes)
  obtain ⟨hgroups, hleftover⟩ := fullGroups_eq hsize (calls.flatMap WriteCall.bytes)
  rw [hgroups, hleftover, allFlushable_append, groupsCost_append, clean_add]
  constructor
  · intro hanswered
    obtain ⟨answer, w, hrun⟩ := hanswered
    obtain ⟨answers, mid, hfront, hfinish⟩ := of_bind_ok hrun
    obtain ⟨hall, hclean, hfaults, hopen⟩ := hcalls.of_ok hfront
    obtain ⟨⟨hall', hclean'⟩, hready⟩ := (finish_answered_iff hopen hblocks htail).mp ⟨answer,
      w, hfinish⟩
    rw [hfaults] at hclean'
    exact ⟨⟨⟨hall, hall'⟩, hclean, hclean'⟩, hready⟩
  · intro hflushes
    obtain ⟨⟨⟨hall, hall'⟩, hclean, hclean'⟩, hready⟩ := hflushes
    obtain ⟨answers, mid, hfront, hfaults, hopen⟩ := hcalls.exists_ok hall hclean
    rw [← hfaults] at hclean'
    obtain ⟨answer, w, hfinish⟩ :=
      (finish_answered_iff hopen hblocks htail).mpr ⟨⟨hall', hclean'⟩, hready⟩
    exact ⟨answer, w, (bind_ok hfront).trans hfinish⟩

theorem runAnswered_unfailed (hsize : 0 < config.blockSize) (hnew : OpenData config [] [] w₀)
    {calls : List WriteCall} {out : Sink} {w : PgzfWriter}
    (hrun : runAnswered D calls w₀ = .ok (.ok out) w) : Unfailed w₀ w := by
  obtain ⟨answers, mid, hfront, hfinish⟩ := of_bind_ok hrun
  obtain ⟨-, hclean, hfaults, hopen⟩ := (spends_answered (D := D) hsize hnew calls).of_ok hfront
  have hfront : Unfailed w₀ mid := ⟨_, hclean, hfaults⟩
  rcases Prog.of_attempt_ok hfinish with ⟨out', -, hlast⟩ | ⟨e, herror, -⟩
  · exact hfront.trans (finish_unfailed hopen (length_openBlocks_lt _ _ _ _)
      (length_openTail_lt hsize _ _) hlast)
  · exact absurd herror (by simp)

theorem reportsFailures_iff (hsize : 0 < config.blockSize) (hnew : OpenData config [] [] w₀)
    (calls : List WriteCall) :
    ReportsFailures D w₀ calls ↔ ∃ answer w, runAnswered D calls w₀ = .ok answer w := by
  constructor
  · intro hreports
    obtain ⟨answer, w, hrun, -⟩ := hreports
    exact ⟨answer, w, hrun⟩
  · intro hanswered
    obtain ⟨answer, w, hrun⟩ := hanswered
    exact ⟨answer, w, hrun, fun out hout => runAnswered_unfailed hsize hnew (hout ▸ hrun)⟩

end

/-- The failures of the sink and of the compressor are reported exactly where none of them meets the
flush of a full group. -/
theorem failures_reported_iff (D : Deps) {config : PgzfConfig} (hsize : 1 ≤ config.blockSize)
    {s : Sink} {w₀ : PgzfWriter} (hnew : withConfig s config = .ok () w₀) (calls : List WriteCall) :
    ReportsFailures D w₀ calls ↔
      (calls.flatMap WriteCall.bytes = [] ∨ 1 ≤ config.compressionBatchSize) ∧
        Sealed D config (config.fullGroups (calls.flatMap WriteCall.bytes)) ∧
        Clean w₀.faults (groupsCost (config.fullGroups (calls.flatMap WriteCall.bytes))) := by
  obtain ⟨hallocated, rfl⟩ := of_withConfig_ok hnew
  have hopen := openData_started s hallocated
  have hnone := @payload_eq_nil config hsize (calls.flatMap WriteCall.bytes)
  rw [reportsFailures_iff hsize hopen, runAnswered_iff hsize hopen]
  generalize calls.flatMap WriteCall.bytes = payload at hnone ⊢
  constructor
  · intro hflushes
    obtain ⟨⟨hall, hclean⟩, hready⟩ := hflushes
    refine ⟨?_, fun blocks hblocks => (hall blocks hblocks).2, hclean⟩
    rcases hready with hrest | hbatch
    · cases hfull : config.fullGroups payload with
      | nil => exact .inl (hnone hfull hrest)
      | cons blocks groups => exact .inr (hall blocks (by rw [hfull]; exact List.mem_cons_self)).1
    · exact .inr hbatch
  · intro hseals
    obtain ⟨hready, hsealed, hclean⟩ := hseals
    rcases hready with rfl | hbatch
    · exact ⟨⟨allFlushable_nil D config, hclean⟩, .inl (leftover_nil _)⟩
    · exact ⟨⟨(allFlushable_iff hbatch _).mpr hsealed, hclean⟩, .inr hbatch⟩

/-- A full group and one that is not; the first operation for the second one fails. -/
theorem failures_reported_iff_sample : ∃ w₀,
    withConfig ⟨⟨[], 0⟩, List.replicate 15 none ++ [some ⟨⟨.other, "disk full"⟩, 0⟩],
      []⟩ Stored.sampleConfig =
      .ok () w₀ ∧ ReportsFailures Stored.deps w₀ [.write [97, 98, 99, 100, 101]] := by
  have hnew := withConfig_ok (show Stored.sampleConfig.blockSize < 2 ^ 63 by decide)
    ⟨⟨[], 0⟩, List.replicate 15 none ++ [some ⟨⟨.other, "disk full"⟩, 0⟩], []⟩
  refine ⟨_, hnew, (failures_reported_iff Stored.deps (by decide) hnew _).mpr ⟨.inr (by decide),
    ?_, by decide⟩⟩
  intro blocks hblocks data hdata
  obtain rfl : blocks = [[97, 98], [99, 100]] := List.mem_singleton.mp hblocks
  have hshort : data.length < 2 ^ 16 := by
    have hall : ∀ data ∈ [[], [97, 98], [99, 100]], (data : Bytes).length < 2 ^ 16 := by decide
    exact hall data hdata
  exact ⟨_, Stored.compressBlock_eq _ hshort⟩

/-- The first operation behind the creation fails, and
with it the group of a block: the `write` panics. -/
theorem write_panics_on_failure : ∃ w₀,
    withConfig ⟨⟨[], 0⟩, [none, some ⟨⟨.other, "disk full"⟩, 0⟩], []⟩ ⟨2, 1, 6, none, none, 1000⟩ =
      .ok () w₀ ∧
      (∃ w, runAnswered Stored.deps [.write [97, 98]] w₀ =
        .error (.panic "failed to flush group") w) ∧
      ¬ ReportsFailures Stored.deps w₀ [.write [97, 98]] := by
  have hnew :=
    withConfig_ok (show (⟨2, 1, 6, none, none, 1000⟩ : PgzfConfig).blockSize < 2 ^ 63 by decide)
      ⟨⟨[], 0⟩, [none, some ⟨⟨.other, "disk full"⟩, 0⟩], []⟩
  have hpanics : ∃ w, runAnswered Stored.deps [.write [97, 98]]
      (started ⟨⟨[], 0⟩, [none, some ⟨⟨.other, "disk full"⟩, 0⟩], []⟩ ⟨2, 1, 6, none, none, 1000⟩) =
        .error (.panic "failed to flush group") w := ⟨_, rfl⟩
  refine ⟨_, hnew, hpanics, ?_⟩
  intro hreports
  obtain ⟨answer, w, hrun, -⟩ := hreports
  obtain ⟨w', hpanic⟩ := hpanics
  exact absurd (hrun.symm.trans hpanic) (by simp)

end Pgzf
