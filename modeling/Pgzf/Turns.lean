import Pgzf.Writer

/-!
# A new writer, and the turns of `write`

A turn of the loop copies into the buffer what there is room for; a full buffer becomes a block of
the open group.
-/

namespace Pgzf

open PgzfWriter Program

variable {D : Deps} {w : PgzfWriter}

namespace PgzfWriter

def started (inner : Sink) (config : PgzfConfig) : PgzfWriter :=
  onSink inner config (List.replicate config.blockSize 0)

theorem zeroed_ok {σ : Type} {n : Nat} (h : n < 2 ^ 63) (s : σ) :
    zeroed n s = .ok (List.replicate n 0) s := by
  rw [zeroed, if_pos h, pure_apply]

theorem of_zeroed_ok {σ : Type} {n : Nat} {s s' : σ} {buffer : Bytes}
    (h : zeroed n s = .ok buffer s') : n < 2 ^ 63 := by
  by_contra hlarge
  rw [zeroed, if_neg hlarge] at h
  exact absurd h (by simp)

theorem zeroed_bind {σ α : Type} (n : Nat) (f : Bytes → Prog σ α) :
    zeroed n >>= f =
      if n < 2 ^ 63 then f (List.replicate n 0) else throw (.panic "capacity overflow") := by
  rw [zeroed]
  split <;> rfl

theorem withConfig_ok {config : PgzfConfig} (h : config.blockSize < 2 ^ 63) (s : Sink) :
    withConfig s config = .ok () (started s config) := by
  rw [withConfig, bind_ok (zeroed_ok h _)]
  rfl

theorem of_withConfig_ok {config : PgzfConfig} {s : Sink} (h : withConfig s config = .ok () w) :
    config.blockSize < 2 ^ 63 ∧ w = started s config := by
  have hsize : config.blockSize < 2 ^ 63 := by
    obtain ⟨buffer, mid, hzeroed, -⟩ := of_bind_ok h
    exact of_zeroed_ok hzeroed
  exact ⟨hsize, (EStateM.Result.ok.inj ((withConfig_ok hsize s).symm.trans h)).2.symm⟩

theorem onNew_eq {α : Type} {config : PgzfConfig} (h : config.blockSize < 2 ^ 63) (s : Sink)
    (m : Prog PgzfWriter α) : onNew s config m = m (started s config) := by
  rw [onNew, withConfig_ok h]

theorem onNew_panics {α : Type} {config : PgzfConfig} (h : ¬ config.blockSize < 2 ^ 63) (s : Sink)
    (m : Prog PgzfWriter α) :
    onNew s config m = .error (.panic "capacity overflow") (onSink s config []) := by
  rw [onNew, withConfig, zeroed_bind, if_neg h]
  rfl

theorem of_onNew_ok {α : Type} {config : PgzfConfig} {s : Sink} {m : Prog PgzfWriter α} {a : α}
    (h : onNew s config m = .ok a w) : config.blockSize < 2 ^ 63 := by
  cases hnew : withConfig s config with
  | ok _ w₀ => exact (of_withConfig_ok hnew).1
  | error fault w₀ =>
    rw [onNew, hnew] at h
    exact absurd h (by simp)

def filled (w : PgzfWriter) (piece : Bytes) : PgzfWriter :=
  { w with buffer := overwrite w.buffer w.bufferLen piece, bufferLen := w.bufferLen + piece.length }

/-- The writer with what its buffer holds moved into the open group. -/
def moved (w : PgzfWriter) : PgzfWriter :=
  { w with
    buffer := List.replicate w.config.blockSize 0
    pendingBlocks :=
      w.pendingBlocks ++ [⟨w.buffer.take w.bufferLen, if w.blocksInGroup = 0 then .beg else .dat⟩]
    blocksInGroup := w.blocksInGroup + 1
    bufferLen := 0
    gcPending := if (if w.blocksInGroup = 0 then BlockType.beg else .dat) = BlockType.beg then true
      else w.gcPending }

end PgzfWriter

theorem length_buffer_filled {piece : Bytes}
    (hroom : w.bufferLen + piece.length ≤ w.buffer.length) :
    (w.filled piece).buffer.length = w.buffer.length :=
  length_overwrite_of_le hroom

theorem take_buffer_filled {piece : Bytes} (hroom : w.bufferLen + piece.length ≤ w.buffer.length) :
    (w.filled piece).buffer.take (w.filled piece).bufferLen = w.buffer.take w.bufferLen ++
      piece := by
  have hgap : w.bufferLen - w.buffer.length = 0 := by omega
  have hlen : (w.buffer.take w.bufferLen ++ piece).length = w.bufferLen + piece.length := by
    rw [List.length_append, List.length_take]
    omega
  simp only [filled, overwrite, hgap, List.replicate_zero, List.append_nil]
  exact List.take_left' hlen

theorem gcPending_moved (w : PgzfWriter) :
    w.moved.gcPending = if w.blocksInGroup = 0 then true else w.gcPending := by
  by_cases hfirst : w.blocksInGroup = 0
  · simp only [moved, hfirst, if_true]
  · simp [moved, hfirst]

variable (D) in
theorem bufferBlock_eq : bufferBlock D = (do
    let w ← get
    if w.bufferLen = 0 then
      return ()
    else if w.config.blockSize < 2 ^ 63 then
      set w.moved
      if w.blocksInGroup + 1 ≥ w.config.groupBlocks then
        Prog.expect "failed to flush group" (flushGroup D)
      else
        return ()
    else
      throw (.panic "capacity overflow") : Prog PgzfWriter Unit) := by
  simp only [bufferBlock, zeroed_bind]
  rfl

theorem bufferBlock_empty (h : w.bufferLen = 0) : bufferBlock D w = .ok () w := by
  rw [bufferBlock, bind_ok (get_apply _), if_pos h, pure_apply]

theorem bufferBlock_apply (h : w.bufferLen ≠ 0) (hsize : w.config.blockSize < 2 ^ 63) :
    bufferBlock D w = if w.config.groupBlocks ≤ w.blocksInGroup + 1 then
      Prog.expect "failed to flush group" (flushGroup D) w.moved else .ok () w.moved := by
  rw [bufferBlock_eq, bind_ok (get_apply _), if_neg h, if_pos hsize, bind_ok (set_apply _ _)]
  split <;> rfl

theorem writeLoop_filled (hlen : w.buffer.length = w.config.blockSize)
    (hroom : w.bufferLen ≤ w.config.blockSize) {buf piece : Bytes} {consumed : Nat}
    (hmore : consumed < buf.length)
    (hpiece : (buf.drop consumed).take (w.config.blockSize - w.bufferLen) = piece) (fuel : Nat) :
    writeLoop D buf (fuel + 1) consumed w = (do
      if w.bufferLen + piece.length = w.config.blockSize then
        bufferBlock D
      writeLoop D buf fuel (consumed + piece.length) : Prog PgzfWriter Nat) (w.filled piece) := by
  have htake : min (w.config.blockSize - w.bufferLen) (buf.length - consumed) = piece.length := by
    rw [← hpiece, List.length_take, List.length_drop]
  have hslice : slice buf consumed (consumed + piece.length) = piece := by
    rw [slice, List.drop_take, Nat.add_sub_cancel_left, ← htake, ← List.length_drop,
      ← List.take_eq_take_min, hpiece]
  have hspace : ¬ w.buffer.length < w.bufferLen + piece.length := by
    rw [hlen]
    omega
  rw [writeLoop]
  simp only [hmore, if_true]
  rw [bind_ok (get_apply _)]
  simp only [Nat.not_lt.mpr hroom, if_false, htake, hspace, hslice]
  rw [bind_ok (set_apply _ _)]
  rfl

end Pgzf
