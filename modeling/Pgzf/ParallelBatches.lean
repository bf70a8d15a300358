import Pgzf.Library.Halting
import Pgzf.Library.Relational
import Pgzf.Workers

/-!
# Batches under any schedule

The thread pool cuts a batch as it likes, and its workers take their turns in any order. A
`Schedule` says what they come to at every batch of a run, and it may depend on all that has
happened: it is a pool for the writer and the reader. The order of the workers shows in nothing but
the error of a batch with several failing blocks, which may be that of any of them.
-/

namespace Pgzf

open Program WorkSplitting

variable {D : Deps} {F : Flate D}

/-- In order a batch fails with `e'`, and `e` is the error of one of its items. -/
def OfBatch {α β : Type} (g : α → Except PgzfError β) (batch : List α) (e e' : PgzfError) : Prop :=
  batch.mapM g = .error e' ∧ ∃ x ∈ batch, g x = .error e

def Fault.EqOr (E : PgzfError → PgzfError → Prop) (fault fault' : Fault) : Prop :=
  fault = fault' ∨ ∃ e e', fault = .error e ∧ fault' = .error e' ∧ E e e'

theorem Fault.EqOr.refl (E : PgzfError → PgzfError → Prop) (fault : Fault) : fault.EqOr E fault :=
  .inl rfl

section

variable {σ α β ω : Type} {E : σ → PgzfError → PgzfError → Prop}

/-- Whatever the workers come to, the program goes on as behind the list mapped in order. -/
theorem alike_ofExcept {job : Job ω α β PgzfError} {g : α → Except PgzfError β} {Good : ω → Prop}
    (hjob : job.Computes g Good) {items : List α} {result : Except PgzfError (List β)}
    (h : Outcome job items result) {s : σ} (hE : ∀ e e', OfBatch g items e e' → E s e e') :
    AlikeUpTo (fun s => Fault.EqOr (E s)) (Prog.ofExcept result s)
      (Prog.ofExcept (items.mapM g) s) := by
  cases hmap : items.mapM g with
  | ok ys =>
    rw [h.eq_of_mapM_ok hjob hmap]
    exact ⟨rfl, rfl⟩
  | error e' =>
    obtain ⟨e, rfl⟩ := h.exists_error hjob hmap
    exact ⟨.inr ⟨e, e', rfl, rfl, hE e e' ⟨hmap, h.of_error hjob⟩⟩, rfl⟩

theorem alike_expect {message : String} {m m' : Prog σ α} {s : σ}
    (h : AlikeUpTo (fun s => Fault.EqOr (E s)) (m s) (m' s)) :
    AlikeUpTo (fun s => Fault.EqOr (E s)) (Prog.expect message m s) (Prog.expect message m' s) := by
  rw [Prog.expect, Prog.expect]
  cases hrun : m s with
  | ok a t =>
    cases hrun' : m' s with
    | ok a' t' =>
      rw [hrun, hrun'] at h
      exact h
    | error fault' t' =>
      rw [hrun, hrun'] at h
      exact h.elim
  | error fault t =>
    cases hrun' : m' s with
    | ok a' t' =>
      rw [hrun, hrun'] at h
      exact h.elim
    | error fault' t' =>
      rw [hrun, hrun'] at h
      obtain ⟨rfl | ⟨e, e', rfl, rfl, -⟩, rfl⟩ := h
      · exact .refl (fun s => .refl (E s)) _
      · exact ⟨.refl _ _, rfl⟩

theorem alike_self (m : Prog σ α) (s : σ) : AlikeUpTo (fun s => Fault.EqOr (E s)) (m s) (m s) :=
  .refl (fun s => .refl (E s)) _

end

/-! ### The writer -/

structure Schedule (F : Flate D) where
  collect : PgzfWriter → Nat → List PendingBlock → Except PgzfError (List CompressedBlock)
  possible : ∀ w level batch, Outcome (compressJob F level) batch (collect w level batch)

theorem Schedule.exists (F : Flate D) : Nonempty (Schedule F) :=
  ⟨⟨fun _ level batch => (exists_outcome (compressJob F level) batch).choose,
    fun _ level batch => (exists_outcome (compressJob F level) batch).choose_spec⟩⟩

namespace PgzfWriter

@[reducible] def pool (s : Schedule F) : CompressPool D where
  compressAll level batch := do Prog.ofExcept (s.collect (← get) level batch)

def runCallsUnder (s : Schedule F) (inner : Sink) (config : PgzfConfig) (calls : List WriteCall) :
    EStateM.Result Fault PgzfWriter Sink :=
  @runCalls D (pool s) inner config calls

variable (D) in
/-- The error of another failing block of the batch, which is a batch of the group that is open. -/
def BatchError (w : PgzfWriter) (e e' : PgzfError) : Prop :=
  ∃ batch ∈ Chunks.chunks w.config.compressionBatchSize w.pendingBlocks,
    OfBatch (fun block : PendingBlock =>
      compressSingleBlock D w.config.compressionLevel block.data block.blockType) batch e e'

variable (D) in
/-- One result for both runs, but for which failing block of a batch gives the error. -/
abbrev Alike {α : Type} :
    EStateM.Result Fault PgzfWriter α → EStateM.Result Fault PgzfWriter α → Prop :=
  AlikeUpTo fun w => Fault.EqOr (BatchError D w)

/-! ### Its steps -/

def SameGroup (w₀ w : PgzfWriter) : Prop :=
  w.config = w₀.config ∧ w.pendingBlocks = w₀.pendingBlocks

theorem keeps_writeCompressed (w₀ : PgzfWriter) (cb : CompressedBlock) :
    Keeps (SameGroup w₀) (writeCompressed cb) := by
  have hinner : ∀ data, Keeps (SameGroup w₀) (onInner (Sink.writeAll data)) := fun data =>
    Keeps.onPart (Q := fun _ => True) (fun _ _ => by split <;> trivial) (fun _ _ => trivial)
      fun _ _ h _ => h
  exact (hinner cb.header).bind fun _ => (hinner cb.compressed).bind fun _ =>
    (hinner cb.trailer).bind fun _ => Keeps.bind (fun _ h => h) fun _ => keeps_pure _ _

theorem keeps_writeBatch (w₀ : PgzfWriter) (level : Nat) (batch : List PendingBlock) :
    Keeps (SameGroup w₀) (writeBatch D level batch) := by
  apply Keeps.bind
  · intro w h
    rw [compressAll_eq]
    cases batch.mapM fun block => compressSingleBlock D level block.data block.blockType with
    | ok compressed => exact h
    | error e => exact h
  · exact fun compressed => keeps_mapM compressed fun cb _ => keeps_writeCompressed w₀ cb

variable (s : Schedule F)

theorem alike_writeBatch {w₀ w : PgzfWriter} (h : SameGroup w₀ w) {batch : List PendingBlock}
    (hbatch : batch ∈ Chunks.chunks w₀.config.compressionBatchSize w₀.pendingBlocks) :
    Alike D (@writeBatch D (pool s) w₀.config.compressionLevel batch w)
      (writeBatch D w₀.config.compressionLevel batch w) := by
  have hworkers := alike_ofExcept (E := BatchError D) (s := w)
    (compressJob_computes F w₀.config.compressionLevel) (s.possible w _ batch)
    fun e e' hof => by
      rw [BatchError, h.1, h.2]
      exact ⟨batch, hbatch, hof⟩
  exact hworkers.bind fun compressed t _ => alike_self _ t

theorem alike_flushGroup (w : PgzfWriter) :
    Alike D (@flushGroup D (pool s) w) (flushGroup D w) := by
  apply (alike_self get w).bind
  intro w₀ t hget
  obtain ⟨rfl, rfl⟩ := EStateM.Result.ok.inj hget
  apply (alike_self (pure ()) w).ite
  apply (alike_self (throw _) w).ite
  have hbatches := alike_mapM _ (fun u => .refl (BatchError D u)) _
    (fun batch _ => keeps_writeBatch (D := D) w w.config.compressionLevel batch)
    (fun batch hbatch u hu => alike_writeBatch s hu hbatch) ⟨rfl, rfl⟩
  exact hbatches.bind fun entries u _ => alike_self _ u

theorem alike_bufferBlock (w : PgzfWriter) :
    Alike D (@bufferBlock D (pool s) w) (bufferBlock D w) := by
  apply (alike_self get w).bind
  intro w₀ t _
  apply (alike_self (pure ()) t).ite
  apply (alike_self (zeroed _) t).bind
  intro buffer u _
  apply (alike_self (set _) u).bind
  intro _ v _
  exact (alike_expect (alike_flushGroup s v)).ite (alike_self (pure ()) v)

/-- By induction on the turns. -/
theorem alike_writeLoop (buf : Bytes) (fuel consumed : Nat) (w : PgzfWriter) :
    Alike D (@writeLoop D (pool s) buf fuel consumed w) (writeLoop D buf fuel consumed w) := by
  induction fuel generalizing consumed w with
  | zero => exact alike_self (throw _) w
  | succ fuel ih =>
    apply AlikeUpTo.ite _ (alike_self (pure consumed) w)
    apply (alike_self get w).bind
    intro w₀ t _
    apply (alike_self (throw _) t).ite
    apply (alike_self (throw _) t).ite
    apply (alike_self (set _) t).bind
    intro _ u _
    apply AlikeUpTo.ite
    · exact (alike_bufferBlock s u).bind fun _ v _ => ih _ v
    · exact ih _ u

theorem alike_call (c : WriteCall) (w : PgzfWriter) :
    Alike D (@call D (pool s) c w) (call D c w) := by
  cases c with
  | write buf => exact (alike_writeLoop s buf _ 0 w).bind fun _ t _ => alike_self _ t
  | flush => exact alike_self flush w

theorem alike_finish (w : PgzfWriter) : Alike D (@finish D (pool s) w) (finish D w) :=
  (alike_bufferBlock s w).bind fun _ t _ => (alike_flushGroup s t).bind fun _ u _ => alike_self _ u

/-- Under any schedule a run of the writer leaves the same sink and ends as the run in order; of an
error alone it may be another failing block of the same batch that is reported. -/
theorem runCalls_any_schedule (s : Schedule F) (inner : Sink) (config : PgzfConfig)
    (calls : List WriteCall) :
    Alike D (runCallsUnder s inner config calls) (runCalls D inner config calls) := by
  rw [runCallsUnder, runCalls, runCalls, onNew, onNew]
  cases withConfig inner config with
  | error fault w => exact alike_self (throw fault) w
  | ok _ w =>
    have hcalls := alike_mapM (fun _ => True) (fun u => .refl (BatchError D u)) calls
      (fun _ _ u _ => by split <;> trivial) (fun c _ u _ => alike_call s c u) (s := w) trivial
    exact hcalls.bind fun _ u _ => alike_finish s u

end PgzfWriter

/-! ### The reader -/

structure ReadSchedule (F : Flate D) where
  collectBlocks : PgzfReader D → List (Bytes × Nat) → Except PgzfError (List Bytes)
  collectAhead : PgzfReader D → List (Nat × Bytes × Nat) → Except PgzfError (List (Nat × Bytes))
  possibleBlocks : ∀ r batch, Outcome (decompressJob F) batch (collectBlocks r batch)
  possibleAhead : ∀ r batch, Outcome (readaheadJob F) batch (collectAhead r batch)

theorem ReadSchedule.exists (F : Flate D) : Nonempty (ReadSchedule F) :=
  ⟨⟨fun _ batch => (exists_outcome (decompressJob F) batch).choose,
    fun _ batch => (exists_outcome (readaheadJob F) batch).choose,
    fun _ batch => (exists_outcome (decompressJob F) batch).choose_spec,
    fun _ batch => (exists_outcome (readaheadJob F) batch).choose_spec⟩⟩

namespace PgzfReader

@[reducible] def pool (s : ReadSchedule F) : DecompressPool D where
  decompressBlocks batch := do Prog.ofExcept (s.collectBlocks (← get) batch)
  decompressAhead batch := do Prog.ofExcept (s.collectAhead (← get) batch)

abbrev Alike {α : Type} :
    EStateM.Result Fault (PgzfReader D) α → EStateM.Result Fault (PgzfReader D) α → Prop :=
  AlikeUpTo fun _ => Fault.EqOr fun _ _ => True

variable (s : ReadSchedule F)

/-! ### Its steps -/

theorem alike_readBlocks (startBlock count : Nat) (r : PgzfReader D) :
    Alike (@readBlocks D (pool s) startBlock count r) (readBlocks startBlock count r) := by
  apply (alike_self get r).bind
  intro r₀ t _
  apply (alike_self (throw _) t).ite
  cases r₀.index with
  | none => exact alike_self (throw _) t
  | some index =>
    apply (alike_self (throw _) t).ite
    apply (alike_self _ t).bind
    intro limit t _
    apply (alike_self (pure []) t).ite
    cases index.compressedOffset startBlock with
    | none => exact alike_self (throw _) t
    | some offset =>
      apply (alike_self _ t).bind
      intro _ t _
      apply (alike_self _ t).bind
      intro _ t _
      apply (alike_self get t).bind
      intro r₁ t _
      apply (alike_self _ t).bind
      intro rawBatch t _
      have hworkers := alike_ofExcept (E := fun _ _ _ => True) (s := t) (decompressJob_computes F)
        (s.possibleBlocks t rawBatch) fun _ _ _ => trivial
      exact hworkers.bind fun decompressed u _ => alike_self _ u

theorem alike_fetchBatch (index : PgzfIndex) (start stop : Nat) (r : PgzfReader D) :
    Alike (@fetchBatch D (pool s) index start stop r) (fetchBatch index start stop r) := by
  apply (alike_self get r).bind
  intro r₀ t _
  apply (alike_self (set _) t).bind
  intro _ t _
  apply (alike_self _ t).ite
  apply (alike_self _ t).bind
  intro found t _
  have hworkers := alike_ofExcept (E := fun _ _ _ => True) (s := t) (readaheadJob_computes F)
    (s.possibleAhead t found.1) fun _ _ _ => trivial
  exact hworkers.bind fun decompressed u _ => alike_self _ u

theorem alike_fillReadahead (r : PgzfReader D) :
    Alike (@fillReadahead D (pool s) r) (fillReadahead r) := by
  apply (alike_self get r).bind
  intro r₀ t _
  apply (alike_self (pure ()) t).ite
  apply (alike_self (pure ()) t).ite
  apply (alike_self (pure ()) t).ite
  cases r₀.index with
  | none => exact alike_self (pure ()) t
  | some index =>
    apply (alike_self (set _) t).ite
    exact (alike_self _ t).bind fun limit u _ => alike_fetchBatch s index _ _ u

theorem alike_executePendingSeek (r : PgzfReader D) :
    Alike (@executePendingSeek D (pool s) r) (executePendingSeek r) := by
  apply (alike_self get r).bind
  intro r₀ t _
  cases r₀.pendingSeek with
  | none => exact alike_self (pure ()) t
  | some targetByte =>
    apply (alike_self (set _) t).bind
    intro _ t _
    cases r₀.index with
    | none => exact alike_self (throw _) t
    | some index =>
      dsimp only
      cases index.seekByte D targetByte with
      | error e => exact alike_self (throw _) t
      | ok found =>
        apply (alike_self _ t).bind
        intro _ t _
        apply (alike_self get t).bind
        intro r₁ t _
        apply (alike_self (set _) t).bind
        intro _ t _
        cases (r₁.blockCache.get found.1).1 with
        | some cached => exact alike_self _ t
        | none =>
          dsimp only
          cases index.compressedOffset found.1 with
          | none => exact alike_self (throw _) t
          | some compressedOffset =>
            apply (alike_self _ t).bind
            intro _ t _
            apply (alike_self _ t).bind
            intro _ t _
            exact (alike_fillReadahead s t).bind fun _ u _ => alike_self _ u

theorem alike_readNextBlock (n : Nat) (r : PgzfReader D) :
    Alike (@readNextBlock D (pool s) n r) (readNextBlock n r) := by
  apply (alike_self get r).bind
  intro r₀ t _
  apply AlikeUpTo.ite
  · apply (alike_self (serveNext n) t).bind
    intro served t _
    cases served with
    | some out => exact alike_self (pure out) t
    | none => exact (alike_fillReadahead s t).bind fun _ u _ => alike_self _ u
  · exact alike_self _ t

theorem alike_read (n : Nat) (r : PgzfReader D) : Alike (@read D (pool s) n r) (read n r) := by
  apply (alike_self (pure []) r).ite
  apply (alike_executePendingSeek s r).bind
  intro _ t _
  apply (alike_self get t).bind
  intro r₀ t _
  apply (alike_self _ t).ite
  exact (alike_self (pure []) t).ite (alike_readNextBlock s n t)

end PgzfReader

/-! ### Sessions -/

def answered {σ α : Type} (m : Prog σ α) : Prog σ (Option α) :=
  do return (← Prog.attempt m).toOption

theorem answered_eq {m m' : Prog (PgzfReader D) Bytes} {r : PgzfReader D}
    (h : PgzfReader.Alike (m r) (m' r)) : answered m r = answered m' r := by
  rw [answered, answered, bind_apply, bind_apply, Prog.attempt, Prog.attempt]
  cases hrun : m r with
  | ok a u =>
    cases hrun' : m' r with
    | ok a' u' =>
      rw [hrun, hrun'] at h
      obtain ⟨rfl, rfl⟩ := h
      rfl
    | error fault' u' =>
      rw [hrun, hrun'] at h
      exact h.elim
  | error fault u =>
    cases hrun' : m' r with
    | ok a' u' =>
      rw [hrun, hrun'] at h
      exact h.elim
    | error fault' u' =>
      rw [hrun, hrun'] at h
      obtain ⟨rfl | ⟨e, e', rfl, rfl, -⟩, rfl⟩ := h
      · rfl
      · rfl

inductive PoolCall (D : Deps) where
  | read (n : Nat)
  | readBlocks (startBlock count : Nat)
  | other (m : Prog (PgzfReader D) Bytes)

def PoolCall.run [PgzfReader.DecompressPool D] : PoolCall D → Prog (PgzfReader D) Bytes
  | .read n => PgzfReader.read n
  | .readBlocks startBlock count => PgzfReader.readBlocks startBlock count
  | .other m => m

def PoolCall.runUnder (s : ReadSchedule F) (call : PoolCall D) : Prog (PgzfReader D) Bytes :=
  @PoolCall.run D (PgzfReader.pool s) call

theorem PoolCall.alike (s : ReadSchedule F) (call : PoolCall D) (r : PgzfReader D) :
    PgzfReader.Alike (call.runUnder s r) (call.run r) := by
  cases call with
  | read n => exact PgzfReader.alike_read s n r
  | readBlocks startBlock count => exact PgzfReader.alike_readBlocks s startBlock count r
  | other m => exact alike_self m r

/-- Under any schedule the calls of a session are answered
with the same bytes, and fail where they fail in order. -/
theorem session_any_schedule (s : ReadSchedule F) (calls : List (PoolCall D)) (r : PgzfReader D) :
    (calls.mapM fun call => answered (call.runUnder s)) r =
      (calls.mapM fun call => answered call.run) r := by
  have hcall : (fun call : PoolCall D => answered (call.runUnder s)) = fun call =>
      answered call.run :=
    funext fun call => funext fun t => answered_eq (call.alike s t)
  rw [hcall]

/-! ### Every order -/

/-- The workers come to an end in every order, and to
the list mapped in order or to the error of an item. -/
structure AnyOrder {ω α β : Type} (job : Job ω α β PgzfError) (g : α → Except PgzfError β)
    (batch : List α) : Prop where
  ends : WellFounded fun pool' pool => Step job pool pool'
  finishes : ∀ pool, Steps job (.start batch) pool → ∃ pool', Steps job pool pool' ∧ pool'.Finished
  result : ∀ pool, Steps job (.start batch) pool → pool.Finished →
    pool.result = batch.mapM g ∨ (∃ e, batch.mapM g = .error e) ∧ ∃ x ∈ batch, ∃ e, g x = .error e ∧
      pool.result = .error e

theorem anyOrder_of_computes {ω α β : Type} {job : Job ω α β PgzfError} {g : α → Except PgzfError β}
    {Good : ω → Prop} (hjob : job.Computes g Good) (batch : List α) : AnyOrder job g batch := by
  refine ⟨wellFounded_step job, fun pool _ => exists_finished job pool,
    fun pool hsteps hfinished => ?_⟩
  have houtcome : Outcome job batch pool.result := ⟨pool, hsteps, hfinished, rfl⟩
  cases hmap : batch.mapM g with
  | ok ys => exact .inl (houtcome.eq_of_mapM_ok hjob hmap)
  | error e =>
    obtain ⟨e', hresult⟩ := houtcome.exists_error hjob hmap
    rw [hresult] at houtcome
    obtain ⟨x, hx, hfails⟩ := houtcome.of_error hjob
    exact .inr ⟨⟨e, rfl⟩, x, hx, e', hfails, hresult⟩

/-- The batches of `flush_group`, `read_blocks` and `fill_readahead`, whatever their workers keep
between two blocks. -/
theorem batches_any_order (F : Flate D) :
    (∀ level batch, AnyOrder (compressJob F level)
      (fun block => PgzfWriter.compressSingleBlock D level block.data block.blockType) batch) ∧
    (∀ batch, AnyOrder (decompressJob F) (fun (raw, headerSize) =>
      PgzfReader.decompressRawBlockWith D raw headerSize) batch) ∧
    ∀ batch, AnyOrder (readaheadJob F) (fun (blockIdx, raw, headerSize) =>
      match PgzfReader.decompressRawBlockWith D raw headerSize with
      | .ok data => .ok (blockIdx, data)
      | .error e => .error e) batch :=
  ⟨fun level batch => anyOrder_of_computes (compressJob_computes F level) batch,
    fun batch => anyOrder_of_computes (decompressJob_computes F) batch,
    fun batch => anyOrder_of_computes (readaheadJob_computes F) batch⟩

end Pgzf
