import Pgzf.Completed
import Pgzf.Library.Relational

/-!
# Where the sink stands

A writer knows the position of its sink from `with_config` on, and seeks back to offsets it has
computed from it. Two writers with the same configuration and the same calls, one on an empty sink
and one on a sink that stands at `p`, go through the same states: every offset of the second is `p`
more. So the operations of the second are those of the first moved by `p`, whatever the calls, and
also where they fail.
-/

namespace Pgzf

open PgzfWriter Program

/-! ### Operations moved along -/

def SinkOp.shift (p : Nat) : SinkOp → SinkOp
  | .writeAll data => .writeAll data
  | .seek offset => .seek (p + offset)
  | .streamPosition => .streamPosition

theorem replay_shift_pos (p : Nat) (ops : List SinkOp) {c c' : Cursor} (h : c'.pos = p + c.pos) :
    (replay (ops.map (SinkOp.shift p)) c').pos = p + (replay ops c).pos := by
  induction ops generalizing c c' with
  | nil => exact h
  | cons op ops ih =>
    rw [List.map_cons, replay_cons, replay_cons]
    apply ih
    cases op with
    | writeAll data => exact (congrArg (· + data.length) h).trans (Nat.add_assoc _ _ _)
    | seek offset => rfl
    | streamPosition => exact h

def Inside : List SinkOp → Cursor → Prop
  | [], _ => True
  | op :: ops, c => c.pos ≤ c.bytes.length ∧ Inside ops (op.run c)

theorem Inside.append {ops ops' : List SinkOp} {c : Cursor} (h : Inside ops c)
    (h' : Inside ops' (replay ops c)) :
    Inside (ops ++ ops') c := by
  induction ops generalizing c with
  | nil => exact h'
  | cons op ops ih => exact ⟨h.1, ih h.2 h'⟩

/-- Operations that start inside an empty sink leave,
behind `p` in another sink, what they leave there. -/
theorem replay_shift_prefix {p : Nat} {ops : List SinkOp} {c c' : Cursor} (hinside : Inside ops c)
    (hpos : c'.pos = p + c.pos) (h : c.bytes <+: c'.bytes.drop p) :
    (replay ops c).bytes <+: (replay (ops.map (SinkOp.shift p)) c').bytes.drop p := by
  induction ops generalizing c c' with
  | nil => exact h
  | cons op ops ih =>
    rw [List.map_cons, replay_cons, replay_cons]
    cases op with
    | writeAll data =>
      refine ih hinside.2 ?_ ?_
      · exact (congrArg (· + data.length) hpos).trans (Nat.add_assoc _ _ _)
      · simp only [SinkOp.shift, SinkOp.run]
        rw [hpos, drop_overwrite]
        exact overwrite_prefix h hinside.1 data
    | seek offset => exact ih hinside.2 rfl h
    | streamPosition => exact ih hinside.2 hpos h

theorem inside_writes (content : Bytes) (pieces : List Bytes) :
    Inside (pieces.map SinkOp.writeAll) ⟨content, content.length⟩ := by
  induction pieces generalizing content with
  | nil => trivial
  | cons piece rest ih =>
    refine ⟨Nat.le_refl _, ?_⟩
    rw [SinkOp.run, overwrite_end, ← List.length_append]
    exact ih _

/-- The operations of a group stay inside what the group has written. -/
theorem inside_groupOps (D : Deps) (level : Nat) (content : Bytes) {blocks : List Bytes}
    (hne : blocks ≠ []) :
    Inside (groupOps D level content.length blocks) ⟨content, content.length⟩ := by
  have hlen : content.length + (groupWith D level 0 blocks).length =
      (content ++ groupWith D level 0 blocks).length :=
    List.length_append.symm
  obtain ⟨zc, tail, hbeg⟩ := groupWith_eq D level 0 hne
  have hbase : begHeaderSize ≤ (groupWith D level 0 blocks).length := by
    rw [hbeg, List.length_append, length_begHeader]
    omega
  have hgc : content.length + gcValueOffset + 8 ≤
      (content ++ groupWith D level 0 blocks).length := by
    rw [List.length_append]
    rw [begHeaderSize] at hbase
    rw [gcValueOffset]
    omega
  rw [groupOps, List.append_assoc]
  apply (inside_writes _ _).append
  rw [replay_writes, flatten_groupPieces, hlen, patchOps]
  have hkeep : (overwrite (content ++ groupWith D level 0 blocks) (content.length + gcValueOffset)
      (u64Bytes (groupGc D level blocks))).length =
          (content ++ groupWith D level 0 blocks).length :=
    length_overwrite_of_le (by rwa [length_u64Bytes])
  simp only [Inside, SinkOp.run, List.cons_append, List.nil_append, hkeep, length_u64Bytes]
  exact ⟨Nat.le_refl _, Nat.le_refl _, Nat.le_trans (Nat.le_add_right _ 8) hgc, hgc,
    Nat.le_refl _, trivial⟩

theorem inside_fileOps (D : Deps) (level : Nat) (content : Bytes) {groups : List (List Bytes)}
    (hgroups : ∀ blocks ∈ groups, blocks ≠ []) :
    Inside (fileOps D level content.length groups) ⟨content, content.length⟩ := by
  induction groups generalizing content with
  | nil => trivial
  | cons blocks groups ih =>
    have hne := hgroups blocks List.mem_cons_self
    apply (inside_groupOps D level content hne).append
    rw [replay_groupOps D level content hne, ← List.length_append]
    exact ih _ fun b hb => hgroups b (List.mem_cons_of_mem _ hb)

/-- The sink `b` has seen the operations of `a`, which began empty, moved to where `s` stands. -/
def Moved (s a b : Sink) : Prop :=
  ∃ ops, a = (Sink.atEnd []).after ops ∧ b = s.after (ops.map (SinkOp.shift s.cursor.pos))

structure Shifted (s : Sink) (w₀ w : PgzfWriter) : Prop where
  inner : Moved s w₀.inner w.inner
  rest : w = { w₀ with
    inner := w.inner
    groupStartOffset := s.cursor.pos + w₀.groupStartOffset }

variable {D : Deps} {s : Sink}

theorem Moved.pos {a b : Sink} (h : Moved s a b) : b.cursor.pos = s.cursor.pos + a.cursor.pos := by
  obtain ⟨ops, rfl, rfl⟩ := h
  exact replay_shift_pos _ ops rfl

theorem Shifted.exists_eq {w₀ w : PgzfWriter} (h : Shifted s w₀ w) :
    ∃ inner, Moved s w₀.inner inner ∧
      w = { w₀ with inner := inner, groupStartOffset := s.cursor.pos + w₀.groupStartOffset } :=
  ⟨w.inner, h.inner, h.rest⟩

/-! ### Programs of the writer -/

theorem related_zeroed (s : Sink) (n : Nat) : Related (Shifted s) Eq (zeroed n) (zeroed n) :=
  Related.ite Iff.rfl (fun _ => related_pure rfl) fun _ => related_throw _ _

section Programs

variable (hs : s.faults = [])

include hs

theorem related_perform (op : SinkOp) :
    Related (Moved s) Eq (Sink.perform op) (Sink.perform (op.shift s.cursor.pos)) := by
  rintro a b ⟨ops, rfl, rfl⟩
  rw [Sink.perform_ok rfl, Sink.perform_ok (by exact hs)]
  refine ⟨rfl, ops ++ [op], ?_, ?_⟩
  · rw [Sink.after_after]
  · rw [Sink.after_after, List.map_append, List.map_singleton]

theorem related_sinkPosition :
    Related (Moved s) (fun a b => b = s.cursor.pos + a) Sink.streamPosition
      Sink.streamPosition := by
  apply (related_perform hs .streamPosition).bind
  rintro _ _ rfl
  refine related_get.bind fun a b hmoved => related_pure hmoved.pos

omit hs in
theorem Shifted.put {w₀ w : PgzfWriter} (h : Shifted s w₀ w) {a b : Sink} (hmoved : Moved s a b) :
    Shifted s { w₀ with inner := a } { w with inner := b } :=
  ⟨hmoved, by rw [h.rest]⟩

omit hs in
theorem related_onInner {α : Type} {V : α → α → Prop} {m m' : Prog Sink α}
    (h : Related (Moved s) V m m') :
    Related (Shifted s) V (PgzfWriter.onInner m) (PgzfWriter.onInner m') :=
  h.onPart (fun _ _ hw => hw.inner) fun _ _ _ _ hw hmoved => hw.put hmoved

theorem related_writeAll (data : Bytes) :
    Related (Shifted s) Eq (PgzfWriter.onInner (Sink.writeAll data))
      (PgzfWriter.onInner (Sink.writeAll data)) :=
  related_onInner (related_perform hs (.writeAll data))

omit hs in
theorem related_ofExcept {σ σ' α : Type} {R : σ → σ' → Prop} (result : Except PgzfError α) :
    Related R Eq (Prog.ofExcept result) (Prog.ofExcept result) := by
  cases result with
  | ok a => exact related_pure rfl
  | error e => exact related_throw _ _

omit hs in
theorem related_expect {σ σ' α α' : Type} {R : σ → σ' → Prop} {V : α → α' → Prop} {m : Prog σ α}
    {m' : Prog σ' α'} (message : String) (h : Related R V m m') :
    Related R V (Prog.expect message m) (Prog.expect message m') := by
  intro t t' ht
  have hends := h t t' ht
  rw [Prog.expect, Prog.expect]
  cases hrun : m t with
  | ok a u =>
    rw [hrun] at hends
    obtain ⟨b, u', hrun', hab, hu⟩ := hends.of_ok
    rw [hrun']
    exact ⟨hab, hu⟩
  | error fault u =>
    rw [hrun] at hends
    obtain ⟨u', hrun', hu⟩ := hends.of_error
    rw [hrun']
    cases fault <;> exact ⟨rfl, hu⟩

theorem related_writeCompressed (cb : CompressedBlock) :
    Related (Shifted s) Eq (writeCompressed cb) (writeCompressed cb) := by
  refine (related_writeAll hs _).bind fun _ _ _ => (related_writeAll hs _).bind fun _ _ _ =>
    (related_writeAll hs _).bind fun _ _ _ => Related.bind (related_modify ?_) fun _ _ _ =>
      related_pure rfl
  rintro w₀ w hw
  obtain ⟨inner, hmoved, rfl⟩ := hw.exists_eq
  exact ⟨hmoved, rfl⟩

theorem related_writeBatch (level : Nat) (batch : List PendingBlock) :
    Related (Shifted s) Eq (writeBatch D level batch) (writeBatch D level batch) := by
  apply (related_ofExcept _).bind
  rintro compressed _ rfl
  exact related_mapM compressed fun cb _ => related_writeCompressed hs cb

theorem related_writeIdx (level : Nat) (entries : List IndexEntry) :
    Related (Shifted s) (fun _ _ => True) (writeIdx D level entries)
      (writeIdx D level entries) := by
  apply (related_ofExcept _).bind
  rintro empty _ rfl
  refine (related_writeAll hs _).bind fun _ _ _ => (related_writeAll hs _).bind fun _ _ _ =>
    (related_writeAll hs _).bind fun _ _ _ => related_modify ?_
  rintro w₀ w hw
  obtain ⟨inner, hmoved, rfl⟩ := hw.exists_eq
  exact ⟨hmoved, rfl⟩

theorem related_backpatchGc (entries : List IndexEntry) :
    Related (Shifted s) (fun _ _ => True) (backpatchGc entries) (backpatchGc entries) := by
  refine related_get.bind fun w₀ w hw => ?_
  obtain ⟨inner, hmoved, rfl⟩ := hw.exists_eq
  refine Related.ite Iff.rfl (fun _ => ?_) fun _ => related_pure trivial
  apply (related_onInner (related_sinkPosition hs)).bind
  rintro current _ rfl
  have hseek := fun offset => related_onInner (related_perform hs (.seek offset))
  have hgc := hseek (w₀.groupStartOffset + gcValueOffset)
  rw [SinkOp.shift, ← Nat.add_assoc] at hgc
  refine hgc.bind fun _ _ _ => (related_writeAll hs _).bind fun _ _ _ =>
      (hseek current).bind fun _ _ _ =>
    related_modify ?_
  rintro v₀ v hv
  obtain ⟨inner', hmoved', rfl⟩ := hv.exists_eq
  exact ⟨hmoved', rfl⟩

theorem related_flushGroup :
    Related (Shifted s) (fun _ _ => True) (flushGroup D) (flushGroup D) := by
  refine related_get.bind fun w₀ w hw => ?_
  obtain ⟨inner, hmoved, rfl⟩ := hw.exists_eq
  refine Related.ite Iff.rfl (fun _ => related_pure trivial) fun _ =>
    Related.ite Iff.rfl (fun _ => related_throw _ _) fun _ => ?_
  apply (related_mapM _ fun batch _ => related_writeBatch hs _ batch).bind
  rintro entries _ rfl
  refine (related_writeIdx hs _ _).bind fun _ _ _ => (related_backpatchGc hs _).bind fun _ _ _ => ?_
  refine Related.bind (related_modify ?_) fun _ _ _ => ?_
  · rintro v₀ v hv
    obtain ⟨inner', hmoved', rfl⟩ := hv.exists_eq
    exact ⟨hmoved', rfl⟩
  · apply (related_onInner (related_sinkPosition hs)).bind
    rintro offset _ rfl
    apply related_modify
    rintro v₀ v hv
    obtain ⟨inner', hmoved', rfl⟩ := hv.exists_eq
    exact ⟨hmoved', rfl⟩

theorem related_bufferBlock :
    Related (Shifted s) (fun _ _ => True) (bufferBlock D) (bufferBlock D) := by
  refine related_get.bind fun w₀ w hw => ?_
  obtain ⟨inner, hmoved, rfl⟩ := hw.exists_eq
  refine Related.ite Iff.rfl (fun _ => related_pure trivial) fun _ => ?_
  apply (related_zeroed s _).bind
  rintro buffer _ rfl
  refine (related_set ⟨hmoved, rfl⟩).bind fun _ _ _ => ?_
  exact Related.ite Iff.rfl (fun _ => related_expect _ (related_flushGroup hs)) fun _ =>
    related_pure trivial

theorem related_writeLoop (buf : Bytes) (fuel consumed : Nat) :
    Related (Shifted s) Eq (writeLoop D buf fuel consumed) (writeLoop D buf fuel consumed) := by
  induction fuel generalizing consumed with
  | zero => exact related_throw _ _
  | succ fuel ih =>
    refine Related.ite Iff.rfl (fun _ => ?_) fun _ => related_pure rfl
    refine related_get.bind fun w₀ w hw => ?_
    obtain ⟨inner, hmoved, rfl⟩ := hw.exists_eq
    refine Related.ite Iff.rfl (fun _ => related_throw _ _) fun _ =>
      Related.ite Iff.rfl (fun _ => related_throw _ _) fun _ => ?_
    refine (related_set ⟨hmoved, rfl⟩).bind fun _ _ _ => ?_
    exact Related.ite Iff.rfl (fun _ => (related_bufferBlock hs).bind fun _ _ _ => ih _)
      fun _ => ih _

theorem related_call (c : WriteCall) : Related (Shifted s) Eq (call D c) (call D c) := by
  cases c with
  | write buf => exact (related_writeLoop hs buf _ _).bind fun _ _ _ => related_pure rfl
  | flush => exact related_pure rfl

theorem related_finish : Related (Shifted s) (Moved s) (finish D) (finish D) := by
  refine (related_bufferBlock hs).bind fun _ _ _ => (related_flushGroup hs).bind fun _ _ _ => ?_
  exact related_get.bind fun _ _ hw => related_pure hw.inner

theorem shifted_onSink (config : PgzfConfig) (buffer : Bytes) :
    Shifted s (onSink (Sink.atEnd []) config buffer) (onSink s config buffer) := by
  have hposition : Sink.streamPosition s = .ok s.cursor.pos (s.after [.streamPosition]) := by
    rw [Sink.streamPosition, Program.bind_ok (Sink.perform_ok hs _)]
    rfl
  have hposition₀ : Sink.streamPosition (Sink.atEnd []) =
    .ok 0 ((Sink.atEnd []).after [.streamPosition]) := rfl
  rw [onSink, onSink, hposition, hposition₀]
  exact ⟨⟨[.streamPosition], rfl, rfl⟩, rfl⟩

theorem ends_calls (config : PgzfConfig) (calls : List WriteCall) :
    Ends (Shifted s) Eq ((calls.mapM (call D)) (started (Sink.atEnd []) config))
      ((calls.mapM (call D)) (started s config)) :=
  related_mapM calls (fun c _ => related_call hs c) _ _ (shifted_onSink hs config _)

theorem ends_runCalls (config : PgzfConfig) (calls : List WriteCall) :
    Ends (Shifted s) (Moved s) (runCalls D (Sink.atEnd []) config calls)
      (runCalls D s config calls) := by
  by_cases hallocated : config.blockSize < 2 ^ 63
  · have hcalls := related_mapM calls fun c _ => related_call (D := D) hs c
    rw [runCalls, runCalls, onNew_eq hallocated, onNew_eq hallocated]
    exact (hcalls.bind fun _ _ _ => related_finish hs) _ _ (shifted_onSink hs config _)
  · rw [runCalls, runCalls, onNew_panics hallocated, onNew_panics hallocated]
    exact ⟨rfl, shifted_onSink hs config []⟩

end Programs

end Pgzf
