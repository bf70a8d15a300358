import Pgzf.Error

/-!
# Sources and sinks

An in-memory `Cursor` is its content and a position. A `Source` is what the reader reads from, a
`Sink` what the writer writes to; both are such a cursor with a fault pattern, the list that says,
operation by operation, whether the next one fails and with which error. The empty pattern never
fails. A write that fails may have written a part of its bytes. A sink also keeps the list of the
operations it has performed, so that the content between any two of them can be rebuilt.
-/

namespace Pgzf

/-- The content of a file, and the position of the next access. -/
structure Cursor where
  bytes : Bytes
  pos : Nat
  deriving DecidableEq, Repr

/-- Replace the bytes at `pos`, and lengthen the content
where they reach past its end; a gap is zero. -/
def overwrite (content : Bytes) (pos : Nat) (data : Bytes) : Bytes :=
  content.take pos ++ List.replicate (pos - content.length) 0 ++ data ++ content.drop
    (pos + data.length)

/-! ### Reading -/

structure Source where
  bytes : Bytes
  pos : Nat
  faults : List (Option IoError)
  deriving DecidableEq, Repr

namespace Source

/-- Let the fault pattern decide about one operation. -/
def tick : Prog Source Unit := fun s =>
  match s.faults with
  | [] => .ok () s
  | none :: rest => .ok () { s with faults := rest }
  | some e :: rest => .error (.error (.io e)) { s with faults := rest }

/-- `seek(SeekFrom::Start(offset))`: any offset is accepted, also one past the end. -/
def seekStart (offset : Nat) : Prog Source Unit := do
  tick
  modify fun s => { s with pos := offset }

/-- `stream_position`. -/
def streamPosition : Prog Source Nat := do
  tick
  return (← get).pos

/-- `read_exact` into a buffer of `n` bytes. At a
premature end an in-memory cursor moves to the end. -/
def readExact (n : Nat) : Prog Source Bytes := do
  tick
  let s ← get
  if n ≤ s.bytes.length - s.pos then
    set { s with pos := s.pos + n }
    return (s.bytes.drop s.pos).take n
  else
    set { s with pos := s.bytes.length }
    throw (.error (.io .unexpectedEof))

@[simp] theorem seekStart_apply (bytes : Bytes) (pos offset : Nat) :
    seekStart offset ⟨bytes, pos, []⟩ = .ok () ⟨bytes, offset, []⟩ := rfl

@[simp] theorem streamPosition_apply (bytes : Bytes) (pos : Nat) :
    streamPosition ⟨bytes, pos, []⟩ = .ok pos ⟨bytes, pos, []⟩ := rfl

theorem readExact_ok {bytes : Bytes} {pos n : Nat} (h : n ≤ bytes.length - pos) :
    readExact n ⟨bytes, pos, []⟩ = .ok ((bytes.drop pos).take n) ⟨bytes, pos + n, []⟩ := by
  simp only [readExact, tick, Program.bind_apply, Program.get_apply, if_pos h, Program.set_apply,
    Program.pure_apply]

theorem readExact_eof {bytes : Bytes} {pos n : Nat} (h : bytes.length - pos < n) :
    readExact n ⟨bytes, pos, []⟩ = .error (.error (.io .unexpectedEof)) ⟨bytes,
      bytes.length, []⟩ := by
  simp only [readExact, tick, Program.bind_apply, Program.get_apply, if_neg (Nat.not_le.mpr h),
    Program.set_apply, Program.throw_apply]

/-- Where the content at the position begins with `chunk`, that is what is read. -/
theorem readExact_prefix {bytes chunk : Bytes} {pos : Nat} (h : chunk <+: bytes.drop pos) :
    readExact chunk.length ⟨bytes, pos, []⟩ = .ok chunk ⟨bytes, pos + chunk.length, []⟩ := by
  have hlen := h.length_le
  rw [List.length_drop] at hlen
  rw [readExact_ok hlen, ← List.prefix_iff_eq_take.mp h]

end Source

/-! ### Writing -/

inductive SinkOp where
  | writeAll (data : Bytes)
  | seek (offset : Nat)
  | streamPosition
  deriving DecidableEq, Repr

/-- What an operation does to the content and the position. -/
def SinkOp.run : SinkOp → Cursor → Cursor
  | .writeAll data, c => ⟨overwrite c.bytes c.pos data, c.pos + data.length⟩
  | .seek offset, c => ⟨c.bytes, offset⟩
  | .streamPosition, c => c

/-- The content and the position after a list of operations. -/
def replay (ops : List SinkOp) (c : Cursor) : Cursor := ops.foldl (fun c op => op.run c) c

/-- The error of an operation, and how many bytes it has written before it where it is a write. -/
structure WriteFault where
  error : IoError
  written : Nat
  deriving DecidableEq, Repr

/-- What an operation that fails has done: of a write the front, at least one byte is missing. -/
def SinkOp.torn (written : Nat) : SinkOp → List SinkOp
  | .writeAll data => [.writeAll (data.dropLast.take written)]
  | _ => []

/-- Of the operations of a log, some have been
performed, and a part of the next one may have been. -/
def CutIn (ops log : List SinkOp) : Prop :=
  ops <+: log ∨ ∃ done op written, done ++ [op] <+: log ∧ ops = done ++ op.torn written

theorem CutIn.mono {ops log log' : List SinkOp} (h : CutIn ops log) (hlog : log <+: log') :
    CutIn ops log' :=
  h.imp (fun hops => hops.trans hlog) fun ⟨done, op, written, hdone, hops⟩ =>
    ⟨done, op, written, hdone.trans hlog, hops⟩

structure Sink where
  cursor : Cursor
  faults : List (Option WriteFault)
  log : List SinkOp
  deriving DecidableEq, Repr

namespace Sink

/-- One operation: it fails as the fault pattern says, or
it is performed. What is done is entered in the log. -/
def perform (op : SinkOp) : Prog Sink Unit := fun s =>
  match s.faults with
  | [] => .ok () ⟨op.run s.cursor, [], s.log ++ [op]⟩
  | none :: rest => .ok () ⟨op.run s.cursor, rest, s.log ++ [op]⟩
  | some fault :: rest =>
    .error (.error (.io fault.error))
      ⟨replay (op.torn fault.written) s.cursor, rest, s.log ++ op.torn fault.written⟩

def writeAll (data : Bytes) : Prog Sink Unit := perform (.writeAll data)

def seekStart (offset : Nat) : Prog Sink Unit := perform (.seek offset)

def streamPosition : Prog Sink Nat := do
  perform .streamPosition
  return (← get).cursor.pos

/-- An in-memory sink that holds `content`, with the stream at its end. -/
def atEnd (content : Bytes) : Sink := ⟨⟨content, content.length⟩, [], []⟩

end Sink

theorem replay_nil (c : Cursor) : replay [] c = c := rfl

theorem replay_cons (op : SinkOp) (ops : List SinkOp) (c : Cursor) :
    replay (op :: ops) c = replay ops (op.run c) := rfl

theorem replay_append (ops ops' : List SinkOp) (c : Cursor) :
    replay (ops ++ ops') c = replay ops' (replay ops c) := by
  rw [replay, List.foldl_append, replay, replay]

namespace Sink

/-- The sink after operations that did not fail. -/
def after (s : Sink) (ops : List SinkOp) : Sink := ⟨replay ops s.cursor, s.faults, s.log ++ ops⟩

@[simp] theorem after_faults (s : Sink) (ops : List SinkOp) : (s.after ops).faults = s.faults := rfl

@[simp] theorem after_nil (s : Sink) : s.after [] = s := by
  simp only [after, replay_nil, List.append_nil]

@[simp] theorem after_after (s : Sink) (ops ops' : List SinkOp) :
    (s.after ops).after ops' = s.after (ops ++ ops') := by
  simp only [after, replay_append, List.append_assoc]

/-- On a sink that does not fail, an operation is performed. -/
theorem perform_ok {s : Sink} (h : s.faults = []) (op : SinkOp) :
    perform op s = .ok () (s.after [op]) := by
  simp only [perform, h, after, replay_cons, replay_nil]

end Sink

@[simp] theorem length_overwrite_of_le {content data : Bytes} {pos : Nat}
    (h : pos + data.length ≤ content.length) :
    (overwrite content pos data).length = content.length := by
  simp only [overwrite, List.length_append, List.length_take, List.length_replicate,
    List.length_drop]
  omega

theorem overwrite_end (content data : Bytes) :
    overwrite content content.length data = content ++ data := by
  simp [overwrite]

/-- Writing piece after piece at the end appends them all. -/
theorem replay_writes (content : Bytes) (pieces : List Bytes) :
    replay (pieces.map SinkOp.writeAll) ⟨content, content.length⟩ =
      ⟨content ++ pieces.flatten, (content ++ pieces.flatten).length⟩ := by
  induction pieces generalizing content with
  | nil => rw [List.map_nil, replay_nil, List.flatten_nil, List.append_nil]
  | cons piece rest ih =>
    rw [List.map_cons, replay_cons, SinkOp.run, overwrite_end, ← List.length_append, ih,
      List.flatten_cons, List.append_assoc]

/-- Writing over a window of the same length replaces that window. -/
theorem overwrite_window (before window after data : Bytes) (h : data.length = window.length) :
    overwrite (before ++ window ++ after) before.length data = before ++ data ++ after := by
  have htake : (before ++ window ++ after).take before.length = before := by
    rw [List.append_assoc, List.take_left]
  have hdrop : (before ++ window ++ after).drop (before.length + data.length) = after := by
    rw [h, ← List.length_append, List.drop_left]
  have hgap : before.length - (before ++ window ++ after).length = 0 := by
    simp only [List.length_append]
    omega
  rw [overwrite, htake, hdrop, hgap, List.replicate_zero, List.append_nil]

/-- Writing where a zeroed tail begins fills the front of the tail. -/
theorem overwrite_zeros (front data : Bytes) (pos m n : Nat) (hpos : pos = front.length)
    (hm : m = data.length + n) :
    overwrite (front ++ List.replicate m 0) pos data = (front ++ data) ++ List.replicate n 0 := by
  subst hpos hm
  rw [← List.replicate_append_replicate, ← List.append_assoc]
  exact overwrite_window _ _ _ _ (List.length_replicate).symm

/-- What is written behind `p` is written into what stands behind `p`. -/
theorem drop_overwrite (content : Bytes) (p q : Nat) (data : Bytes) :
    (overwrite content (p + q) data).drop p = overwrite (content.drop p) q data := by
  have hrest : (content.drop (p + q + data.length)) = (content.drop p).drop (q + data.length) := by
    rw [List.drop_drop, Nat.add_assoc]
  have hgap : q - (content.length - p) = p + q - content.length - (p - content.length) := by omega
  rw [overwrite, overwrite, List.length_drop, hrest, hgap]
  generalize (content.drop p).drop (q + data.length) = rest
  simp only [List.append_assoc]
  rw [List.drop_append, List.drop_append, List.drop_take, Nat.add_sub_cancel_left, List.length_take,
    List.drop_replicate, List.length_replicate]
  have hzero : p - min (p + q) content.length - (p + q - content.length) = 0 := by omega
  have hmin : p - min (p + q) content.length = p - content.length := by omega
  rw [hzero, hmin, List.drop_zero]

/-- Writing inside or at the end of the smaller content keeps it in front. -/
theorem overwrite_prefix {small large : Bytes} (h : small <+: large) {q : Nat}
    (hq : q ≤ small.length) (data : Bytes) :
    overwrite small q data <+: overwrite large q data := by
  obtain ⟨tail, rfl⟩ := h
  have hgap : q - small.length = 0 := by omega
  have hgap' : q - (small ++ tail).length = 0 := by
    rw [List.length_append]
    omega
  rw [overwrite, overwrite, hgap, hgap', List.take_append_of_le_length hq]
  apply (List.prefix_append_right_inj _).mpr
  rw [List.drop_append]
  exact List.prefix_append _ _

end Pgzf
