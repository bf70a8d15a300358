import Pgzf.Library.Halting
import Pgzf.Turns

/-!
# Runs on a device that fails

A sink may fail now and then. A run of the writer that ends with a value has left in it what the
same run leaves in a sink that never fails: none of its operations has been passed over. A run that
ends early has left what is in that other sink at some moment, between two operations or inside a
write.
-/

namespace Pgzf

open PgzfWriter Program

/-- The second sink holds what the first one does, from empty on, and never fails. -/
structure Sink.Steady (a b : Sink) : Prop where
  cursor : b.cursor = a.cursor
  faults : b.faults = []
  replayed : b.cursor = replay b.log ⟨[], 0⟩

def Sink.Passed (a b : Sink) : Prop := ∃ ops, CutIn ops b.log ∧ a.cursor = replay ops ⟨[], 0⟩

theorem Sink.Steady.passed {a b : Sink} (h : a.Steady b) : a.Passed b :=
  ⟨b.log, .inl List.prefix_rfl, by rw [← h.cursor, h.replayed]⟩

structure PgzfWriter.Steady (w w' : PgzfWriter) : Prop where
  inner : w.inner.Steady w'.inner
  rest : w' = { w with inner := w'.inner }

def PgzfWriter.Passed (w w' : PgzfWriter) : Prop := w.inner.Passed w'.inner

variable {D : Deps} {w w' : PgzfWriter}

theorem PgzfWriter.Steady.exists_eq (h : w.Steady w') :
    ∃ inner, w.inner.Steady inner ∧ w' = { w with inner := inner } :=
  ⟨w'.inner, h.inner, h.rest⟩

theorem PgzfWriter.Steady.put (h : w.Steady w') {a b : Sink} (hab : a.Steady b) :
    PgzfWriter.Steady { w with inner := a } { w' with inner := b } :=
  ⟨hab, by rw [h.rest]⟩

abbrev HaltsOn {α β : Type} (V : α → β → Prop) (m : Prog PgzfWriter α) (m' : Prog PgzfWriter β) :
    Prop :=
  Halts PgzfWriter.Steady PgzfWriter.Passed V m m'

structure Steadily {α : Type} (m : Prog PgzfWriter α) : Prop where
  halts : HaltsOn Eq m m
  lasts : ∀ w, Keeps (PgzfWriter.Passed w) m

/-! ### Rules -/

variable {α β : Type}

theorem steadily_pure (a : α) : Steadily (pure a : Prog PgzfWriter α) :=
  ⟨halts_pure rfl, fun _ => keeps_pure _ a⟩

theorem steadily_throw (e : Fault) : Steadily (throw e : Prog PgzfWriter α) :=
  ⟨halts_throw (fun _ _ hw => hw.inner.passed) e e, fun _ => keeps_throw _ e⟩

theorem Steadily.bind {m : Prog PgzfWriter α} {f : α → Prog PgzfWriter β} (hm : Steadily m)
    (hf : ∀ a, Steadily (f a)) :
    Steadily (m >>= f) := by
  refine ⟨hm.halts.bind (fun a b hab => ?_) fun t b => (hf b).lasts t,
    fun w => (hm.lasts w).bind fun a => (hf a).lasts w⟩
  rw [← hab]
  exact (hf a).halts

theorem Steadily.ite {c : Prop} [Decidable c] {m n : Prog PgzfWriter α} (hm : Steadily m)
    (hn : Steadily n) :
    Steadily (if c then m else n) :=
  ⟨Halts.ite Iff.rfl (fun _ => hm.halts) fun _ => hn.halts, fun w => (hm.lasts w).ite (hn.lasts w)⟩

theorem Steadily.mapM {ι : Type} {op : ι → Prog PgzfWriter α} (items : List ι)
    (h : ∀ i ∈ items, Steadily (op i)) :
    Steadily (items.mapM op) :=
  ⟨halts_mapM items (fun i hi => (h i hi).halts) fun t i hi => (h i hi).lasts t, fun w =>
    keeps_mapM items fun i hi => (h i hi).lasts w⟩

theorem steadily_modify {f : PgzfWriter → PgzfWriter} (hinner : ∀ w, (f w).inner = w.inner)
    (hrest : ∀ w inner, f { w with inner := inner } = { f w with inner := inner }) :
    Steadily (modify f : Prog PgzfWriter PUnit) := by
  refine ⟨fun w w' hw => ⟨⟨⟩, f w', rfl, rfl, ?_⟩, fun w => keeps_modify fun v hv => ?_⟩
  · obtain ⟨inner, hab, rfl⟩ := hw.exists_eq
    rw [hrest w inner]
    exact ⟨by rwa [hinner w], rfl⟩
  · rw [PgzfWriter.Passed, hinner v]
    exact hv

structure Resumes (f : PgzfWriter → Prog PgzfWriter α) : Prop where
  halts : ∀ w w', w.Steady w' → HaltsOn Eq (f w) (f w')
  lasts : ∀ w v, PgzfWriter.Passed w v → Keeps (PgzfWriter.Passed w) (f v)

theorem Resumes.steadily {f : PgzfWriter → Prog PgzfWriter α} (h : Resumes f) :
    Steadily ((get : Prog PgzfWriter PgzfWriter) >>= f) :=
  ⟨halts_get_bind h.halts, fun w => keeps_get_bind (h.lasts w)⟩

theorem Steadily.resumes {f : PgzfWriter → Prog PgzfWriter α} (hf : ∀ w, Steadily (f w))
    (hinner : ∀ w inner, f { w with inner := inner } = f w) : Resumes f := by
  refine ⟨fun w w' hw => ?_, fun w v _ => (hf v).lasts w⟩
  obtain ⟨inner, -, rfl⟩ := hw.exists_eq
  rw [hinner w inner]
  exact (hf w).halts

theorem Resumes.ite {c : PgzfWriter → Prop} [∀ w, Decidable (c w)]
    (hc : ∀ w inner, c { w with inner := inner } ↔ c w) {f g : PgzfWriter → Prog PgzfWriter α}
    (hf : Resumes f) (hg : Resumes g) : Resumes fun w => if c w then f w else g w := by
  refine ⟨fun w w' hw => ?_, fun w v hv => (hf.lasts w v hv).ite (hg.lasts w v hv)⟩
  refine Halts.ite ?_ (fun _ => hf.halts w w' hw) fun _ => hg.halts w w' hw
  obtain ⟨inner, -, rfl⟩ := hw.exists_eq
  exact (hc w inner).symm

theorem resumes_set {f : PgzfWriter → PgzfWriter} (hinner : ∀ w, (f w).inner = w.inner)
    (hrest : ∀ w inner, f { w with inner := inner } = { f w with inner := inner })
    {g : PgzfWriter → Prog PgzfWriter α} (hg : ∀ w, Steadily (g w))
    (hsame : ∀ w inner, g { w with inner := inner } = g w) :
    Resumes fun w => set (f w) >>= fun _ => g w := by
  constructor
  · intro w w' hw
    obtain ⟨inner, hab, rfl⟩ := hw.exists_eq
    rw [hrest w inner, hsame w inner]
    exact (halts_set ⟨by rwa [hinner w], rfl⟩).bind (fun _ _ _ => (hg w).halts) fun t _ =>
      (hg w).lasts t
  · intro w v hv
    refine (keeps_set ?_).bind fun _ => (hg v).lasts w
    rw [PgzfWriter.Passed, hinner v]
    exact hv

/-! ### Operations -/

theorem keeps_perform (op : SinkOp) (a : Sink) : Keeps a.Passed (Sink.perform op) := by
  intro b hab
  obtain ⟨ops, hops, hcursor⟩ := hab
  obtain ⟨cursor, faults, log⟩ := b
  rcases faults with _ | ⟨_ | fault, rest⟩
  all_goals exact ⟨ops, hops.mono (List.prefix_append _ _), hcursor⟩

theorem halts_perform (op : SinkOp) :
    Halts Sink.Steady Sink.Passed Eq (Sink.perform op) (Sink.perform op) := by
  intro a b hab
  obtain ⟨c, faults, log⟩ := a
  obtain ⟨c', faults', log'⟩ := b
  obtain ⟨rfl, rfl⟩ : c' = c ∧ faults' = [] := ⟨hab.cursor, hab.faults⟩
  have hreplayed : op.run c' = replay (log' ++ [op]) ⟨[], 0⟩ := by
    rw [replay_append, ← show c' = replay log' ⟨[], 0⟩ from hab.replayed]
    rfl
  rcases faults with _ | ⟨_ | fault, rest⟩
  · exact ⟨(), _, rfl, rfl, rfl, rfl, hreplayed⟩
  · exact ⟨(), _, rfl, rfl, rfl, rfl, hreplayed⟩
  · refine ⟨log' ++ op.torn fault.written, .inr ⟨log', op, fault.written, List.prefix_rfl, rfl⟩, ?_⟩
    rw [replay_append, ← show c' = replay log' ⟨[], 0⟩ from hab.replayed]

theorem keeps_sinkPosition (a : Sink) : Keeps a.Passed Sink.streamPosition :=
  (keeps_perform .streamPosition a).bind fun _ => (keeps_get _).bind fun _ => keeps_pure _ _

theorem halts_sinkPosition :
    Halts Sink.Steady Sink.Passed Eq Sink.streamPosition Sink.streamPosition := by
  apply (halts_perform .streamPosition).bind
  · intro _ _ _
    apply halts_get.bind
    · intro a b hab
      exact halts_pure (by rw [hab.cursor])
    · exact fun t b => keeps_pure _ _
  · exact fun t _ => (keeps_get _).bind fun _ => keeps_pure _ _

theorem steadily_onInner {m : Prog Sink α} (hm : Halts Sink.Steady Sink.Passed Eq m m)
    (h : ∀ a : Sink, Keeps a.Passed m) :
    Steadily (PgzfWriter.onInner m) :=
  ⟨hm.onPart (fun _ _ hw => hw.inner) (fun _ _ _ _ hw hab => hw.put hab) fun _ _ _ _ _ hab => hab,
    fun w => (h w.inner).onPart (fun _ hv => hv) fun _ _ _ hv => hv⟩

theorem steadily_perform (op : SinkOp) : Steadily (PgzfWriter.onInner (Sink.perform op)) :=
  steadily_onInner (halts_perform op) (keeps_perform op)

theorem steadily_writeAll (data : Bytes) : Steadily (PgzfWriter.onInner (Sink.writeAll data)) :=
  steadily_perform (.writeAll data)

theorem steadily_streamPosition : Steadily (PgzfWriter.onInner Sink.streamPosition) :=
  steadily_onInner halts_sinkPosition keeps_sinkPosition

theorem steadily_ofExcept (result : Except PgzfError α) :
    Steadily (Prog.ofExcept result : Prog PgzfWriter α) := by
  cases result with
  | ok a => exact steadily_pure a
  | error e => exact steadily_throw _

theorem endState_expect {σ : Type} (message : String) (m : Prog σ α) (s : σ) :
    endState (Prog.expect message m s) = endState (m s) := by
  rw [Prog.expect]
  cases m s with
  | ok a t => rfl
  | error fault t => cases fault <;> rfl

theorem Steadily.expect {m : Prog PgzfWriter α} (h : Steadily m) (message : String) :
    Steadily (Prog.expect message m) := by
  constructor
  · intro w w' hw
    have hends := h.halts w w' hw
    have hstop := endState_expect message m w'
    cases hrun : m w with
    | ok a t =>
      rw [hrun] at hends
      obtain ⟨b, t', hrun', hab, ht⟩ := hends
      rw [Prog.expect_ok hrun]
      exact ⟨b, t', Prog.expect_ok hrun', hab, ht⟩
    | error fault t =>
      rw [hrun] at hends
      have herror : ∃ fault', Prog.expect message m w = .error fault' t := by
        rw [Prog.expect, hrun]
        cases fault <;> exact ⟨_, rfl⟩
      obtain ⟨fault', herror⟩ := herror
      rw [herror]
      show PgzfWriter.Passed t (endState (Prog.expect message m w'))
      rw [hstop]
      exact hends
  · intro w v hv
    have hend := (h.lasts w).endState hv
    rw [← endState_expect message] at hend
    cases hrun : Prog.expect message m v with
    | ok a t => rwa [hrun] at hend
    | error fault t => rwa [hrun] at hend

/-! ### Programs of the writer -/

theorem steadily_writeCompressed (cb : CompressedBlock) : Steadily (writeCompressed cb) :=
  (steadily_writeAll _).bind fun _ => (steadily_writeAll _).bind fun _ =>
      (steadily_writeAll _).bind fun _ =>
    (steadily_modify (by intro _; rfl) (by intro _ _; rfl)).bind fun _ => steadily_pure _

theorem steadily_writeBatch (level : Nat) (batch : List PendingBlock) :
    Steadily (writeBatch D level batch) :=
  (steadily_ofExcept _).bind fun compressed => .mapM compressed fun cb _ =>
    steadily_writeCompressed cb

theorem steadily_writeIdx (level : Nat) (entries : List IndexEntry) :
    Steadily (writeIdx D level entries) :=
  (steadily_ofExcept _).bind fun _ => (steadily_writeAll _).bind fun _ =>
      (steadily_writeAll _).bind fun _ =>
    (steadily_writeAll _).bind fun _ => steadily_modify (by intro _; rfl) (by intro _ _; rfl)

theorem steadily_backpatchGc (entries : List IndexEntry) : Steadily (backpatchGc entries) := by
  refine Resumes.steadily (Steadily.resumes (fun w => ?_) fun _ _ => rfl)
  refine .ite ?_ (steadily_pure _)
  exact steadily_streamPosition.bind fun current => (steadily_perform _).bind fun _ =>
      (steadily_writeAll _).bind fun _ =>
    (steadily_perform (.seek current)).bind fun _ =>
      steadily_modify (by intro _; rfl) (by intro _ _; rfl)

theorem steadily_flushGroup : Steadily (flushGroup D) := by
  refine Resumes.steadily (Steadily.resumes (fun w => ?_) fun _ _ => rfl)
  refine .ite (steadily_pure _) (.ite (steadily_throw _) ?_)
  refine (Steadily.mapM _ fun batch _ => steadily_writeBatch _ batch).bind fun _ =>
      (steadily_writeIdx _ _).bind fun _ =>
    (steadily_backpatchGc _).bind fun _ =>
      (steadily_modify (by intro _; rfl) (by intro _ _; rfl)).bind fun _ => ?_
  exact steadily_streamPosition.bind fun _ => steadily_modify (by intro _; rfl) (by intro _ _; rfl)

theorem steadily_bufferBlock : Steadily (bufferBlock D) := by
  rw [bufferBlock_eq]
  apply Resumes.steadily
  refine .ite (fun _ _ => Iff.rfl) (Steadily.resumes (fun _ => steadily_pure _) fun _ _ => rfl) ?_
  refine .ite (fun _ _ => Iff.rfl) ?_ (Steadily.resumes (fun _ => steadily_throw _) fun _ _ => rfl)
  refine resumes_set (by intro _; rfl) (by intro _ _; rfl) (fun w => ?_) fun _ _ => rfl
  exact .ite (steadily_flushGroup.expect _) (steadily_pure _)

/-- By induction on the turns. -/
theorem steadily_writeLoop (buf : Bytes) (fuel consumed : Nat) :
    Steadily (writeLoop D buf fuel consumed) := by
  induction fuel generalizing consumed with
  | zero => exact steadily_throw _
  | succ fuel ih =>
    refine .ite ?_ (steadily_pure _)
    apply Resumes.steadily
    refine .ite (fun _ _ => Iff.rfl)
      (Steadily.resumes (fun _ => steadily_throw _) fun _ _ => rfl) ?_
    refine .ite (fun _ _ => Iff.rfl)
      (Steadily.resumes (fun _ => steadily_throw _) fun _ _ => rfl) ?_
    refine resumes_set (by intro _; rfl) (by intro _ _; rfl) (fun w => ?_) fun _ _ => rfl
    exact .ite (steadily_bufferBlock.bind fun _ => ih _) (ih _)

theorem steadily_call (c : WriteCall) : Steadily (call D c) := by
  cases c with
  | write buf => exact (steadily_writeLoop buf _ _).bind fun _ => steadily_pure _
  | flush => exact steadily_pure _

theorem haltsOn_finish : HaltsOn Sink.Steady (finish D) (finish D) := by
  have hreturns : HaltsOn Sink.Steady (do return (← get).inner : Prog PgzfWriter Sink)
      (do return (← get).inner) :=
    halts_get_bind fun w w' hw => halts_pure hw.inner
  have hlasts : ∀ w, Keeps (PgzfWriter.Passed w) (do return (← get).inner : Prog PgzfWriter Sink) :=
    fun w =>
      (keeps_get _).bind fun _ => keeps_pure _ _
  refine steadily_bufferBlock.halts.bind (fun _ _ _ => ?_) fun w _ =>
    (steadily_flushGroup.lasts w).bind fun _ => hlasts w
  exact steadily_flushGroup.halts.bind (fun _ _ _ => hreturns) fun w _ => hlasts w

theorem lasts_finish (w : PgzfWriter) : Keeps (PgzfWriter.Passed w) (finish D) :=
  (steadily_bufferBlock.lasts w).bind fun _ => (steadily_flushGroup.lasts w).bind fun _ =>
      (keeps_get _).bind fun _ =>
    keeps_pure _ _

/-! ### Runs -/

/-- A sink that cannot tell its position is taken to stand at 0, which is where it stands. -/
theorem steady_started {s : Sink} (hs : s.cursor = ⟨[], 0⟩) (config : PgzfConfig) :
    (started s config).Steady (started (Sink.atEnd []) config) := by
  obtain ⟨cursor, faults, log⟩ := s
  obtain rfl : cursor = ⟨[], 0⟩ := hs
  rcases faults with _ | ⟨_ | e, rest⟩ <;> exact ⟨⟨rfl, rfl, rfl⟩, rfl⟩

/-- A run on an empty sink that ends with a value
leaves in it what it leaves in one that never fails. -/
theorem runCalls_steady {s out : Sink} (hs : s.cursor = ⟨[], 0⟩) {config : PgzfConfig}
    {calls : List WriteCall} (hrun : runCalls D s config calls = .ok out w) :
    ∃ out' w', runCalls D (Sink.atEnd []) config calls = .ok out' w' ∧
      out'.cursor = out.cursor := by
  have hcalls := Steadily.mapM calls fun c _ => steadily_call (D := D) c
  have hhalts := hcalls.halts.bind (fun _ _ _ => haltsOn_finish (D := D)) fun w _ => lasts_finish w
  have hsize := of_onNew_ok hrun
  rw [runCalls, onNew_eq hsize] at hrun
  obtain ⟨out', w', hrun', hout, -⟩ := hhalts.of_ok (steady_started hs config) hrun
  exact ⟨out', w', by rw [runCalls, onNew_eq hsize, hrun'], hout.cursor⟩

end Pgzf
