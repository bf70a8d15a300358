import Pgzf.Flushing

/-!
# Filling blocks and groups

`write` copies into the buffer as long as there is room, a full buffer becomes a block of the open
group, and a full group is flushed. Which groups a writer completes is known before it writes: they
are the full groups of the blocks it holds and of the full blocks of its buffer and the new data.
-/

namespace Pgzf

open PgzfWriter Program FaultPattern Chunks

variable {D : Deps} {config : PgzfConfig} {pending : List Bytes} {tail : Bytes} {w : PgzfWriter}

/-! ### The open data -/

/-- The writer holds `pending` for the open group, and has `tail` in its buffer. -/
structure OpenData (config : PgzfConfig) (pending : List Bytes) (tail : Bytes) (w : PgzfWriter) :
    Prop where
  config_eq : w.config = config
  allocated : config.blockSize < 2 ^ 63
  buffer_length : w.buffer.length = config.blockSize
  buffer : w.buffer.take w.bufferLen = tail
  bufferLen : w.bufferLen = tail.length
  pendingBlocks : w.pendingBlocks.map PendingBlock.data = pending
  blocksInGroup : w.blocksInGroup = pending.length
  gcPending : pending ≠ [] → w.gcPending = true

theorem openData_started (s : Sink) {config : PgzfConfig} (h : config.blockSize < 2 ^ 63) :
    OpenData config [] [] (started s config) := by
  have hbuffer : (List.replicate config.blockSize (0 : UInt8)).length = config.blockSize :=
    List.length_replicate
  obtain ⟨cursor, pattern, log⟩ := s
  match pattern with
  | [] => exact ⟨rfl, h, hbuffer, rfl, rfl, rfl, rfl, fun hne => absurd rfl hne⟩
  | none :: rest => exact ⟨rfl, h, hbuffer, rfl, rfl, rfl, rfl, fun hne => absurd rfl hne⟩
  | some e :: rest => exact ⟨rfl, h, hbuffer, rfl, rfl, rfl, rfl, fun hne => absurd rfl hne⟩

theorem OpenData.sameOpen (h : OpenData config pending tail w) {w' : PgzfWriter}
    (hsame : SameOpen w w') :
    OpenData config pending tail w' := by
  refine ⟨hsame.config.trans h.config_eq, h.allocated, ?_, ?_,
    hsame.bufferLen.trans h.bufferLen, ?_,
    hsame.blocksInGroup.trans h.blocksInGroup, fun hne => hsame.gcPending.trans (h.gcPending hne)⟩
  · rw [hsame.buffer]
    exact h.buffer_length
  · rw [hsame.buffer, hsame.bufferLen]
    exact h.buffer
  · rw [hsame.pendingBlocks]
    exact h.pendingBlocks

theorem OpenData.flushed (h : OpenData config pending tail w) : OpenData config [] tail w.flushed :=
  ⟨h.config_eq, h.allocated, h.buffer_length, h.buffer, h.bufferLen, rfl, rfl,
    fun hne => absurd rfl hne⟩

theorem OpenData.filled (h : OpenData config pending tail w) {piece : Bytes}
    (hroom : tail.length + piece.length ≤ config.blockSize) :
    OpenData config pending (tail ++ piece) (w.filled piece) := by
  rw [← h.bufferLen, ← h.buffer_length] at hroom
  refine ⟨h.config_eq, h.allocated, (length_buffer_filled hroom).trans h.buffer_length, ?_, ?_,
    h.pendingBlocks, h.blocksInGroup, h.gcPending⟩
  · rw [take_buffer_filled hroom, h.buffer]
  · rw [List.length_append, ← h.bufferLen]
    rfl

theorem OpenData.moved (h : OpenData config pending tail w) :
    OpenData config (pending ++ [tail]) [] w.moved := by
  refine ⟨h.config_eq, h.allocated, ?_, rfl, rfl, ?_, ?_, fun _ => ?_⟩
  · rw [← h.config_eq]
    exact List.length_replicate
  · rw [PgzfWriter.moved, List.map_append, h.pendingBlocks]
    exact congrArg (fun data => pending ++ [data]) h.buffer
  · rw [List.length_append, ← h.blocksInGroup]
    rfl
  · rw [gcPending_moved, h.blocksInGroup]
    split
    · rfl
    · rename_i hopen
      exact h.gcPending (List.ne_nil_of_length_pos (Nat.pos_of_ne_zero hopen))

/-! ### What is completed -/

def completedGroups (config : PgzfConfig) (pending : List Bytes) (tail data : Bytes) :
    List (List Bytes) :=
  fulls (max 1 config.groupBlocks) (pending ++ fulls config.blockSize (tail ++ data))

def openBlocks (config : PgzfConfig) (pending : List Bytes) (tail data : Bytes) : List Bytes :=
  leftover (max 1 config.groupBlocks) (pending ++ fulls config.blockSize (tail ++ data))

def openTail (config : PgzfConfig) (tail data : Bytes) : Bytes :=
  leftover config.blockSize (tail ++ data)

theorem one_le_groupSize (config : PgzfConfig) : 0 < max 1 config.groupBlocks :=
  Nat.lt_of_lt_of_le Nat.one_pos (Nat.le_max_left _ _)

theorem length_openBlocks_lt (config : PgzfConfig) (pending : List Bytes) (tail data : Bytes) :
    (openBlocks config pending tail data).length < max 1 config.groupBlocks :=
  length_leftover_lt (one_le_groupSize config) _

theorem length_openTail_lt (hsize : 0 < config.blockSize) (tail data : Bytes) :
    (openTail config tail data).length < config.blockSize :=
  length_leftover_lt hsize _

section Completed

variable {xs ys data : Bytes}

theorem completed_of_lt (hpending : pending.length < max 1 config.groupBlocks)
    (hlt : (tail ++ data).length < config.blockSize) :
    completedGroups config pending tail data = [] ∧ openBlocks config pending tail data = pending ∧
      openTail config tail data = tail ++ data := by
  have hsize := Nat.zero_lt_of_lt hlt
  rw [completedGroups, openBlocks, openTail, fulls_of_length_lt hsize hlt, List.append_nil]
  exact ⟨fulls_of_length_lt (one_le_groupSize config) hpending,
    leftover_of_length_lt (one_le_groupSize config) hpending, leftover_of_length_lt hsize hlt⟩

theorem completed_of_full (hsize : 0 < config.blockSize)
    (hfull : (tail ++ xs).length = config.blockSize) (pending : List Bytes) (ys : Bytes) :
    completedGroups config pending tail (xs ++ ys) = completedGroups config
      (pending ++ [tail ++ xs]) [] ys ∧
      openBlocks config pending tail (xs ++ ys) = openBlocks config
        (pending ++ [tail ++ xs]) [] ys ∧
        openTail config tail (xs ++ ys) = openTail config [] ys := by
  rw [completedGroups, completedGroups, openBlocks, openBlocks, openTail, openTail,
    ← List.append_assoc tail xs ys,
    fulls_cons hsize hfull, leftover_cons hsize hfull, List.nil_append, List.append_assoc,
      List.singleton_append]
  exact ⟨rfl, rfl, rfl⟩

theorem completed_front (config : PgzfConfig) (blocks : List Bytes) (tail data : Bytes) :
    completedGroups config blocks tail data = fulls (max 1 config.groupBlocks) blocks ++
        completedGroups config (leftover (max 1 config.groupBlocks) blocks) tail data ∧
      openBlocks config blocks tail data = openBlocks config
        (leftover (max 1 config.groupBlocks) blocks) tail data :=
  ⟨fulls_append (one_le_groupSize config) _ _, leftover_append (one_le_groupSize config) _ _⟩

theorem completed_append (hsize : 0 < config.blockSize) (pending : List Bytes)
    (tail xs ys : Bytes) :
    completedGroups config pending tail (xs ++ ys) = completedGroups config pending tail xs ++
        completedGroups config (openBlocks config pending tail xs) (openTail config tail xs) ys ∧
      openBlocks config pending tail (xs ++ ys) =
        openBlocks config (openBlocks config pending tail xs) (openTail config tail xs) ys ∧
      openTail config tail (xs ++ ys) = openTail config (openTail config tail xs) ys := by
  simp only [completedGroups, openBlocks, openTail, ← List.append_assoc tail xs ys,
    fulls_append hsize (tail ++ xs) ys,
    leftover_append hsize (tail ++ xs) ys, ← List.append_assoc pending, and_true]
  exact ⟨fulls_append (one_le_groupSize config) _ _, leftover_append (one_le_groupSize config) _ _⟩

theorem completed_flatten (hsize : 0 < config.blockSize) (pending : List Bytes)
    (tail data : Bytes) :
    ((completedGroups config pending tail data).flatten ++
      openBlocks config pending tail data).flatten ++
      openTail config tail data = pending.flatten ++ (tail ++ data) := by
  rw [completedGroups, openBlocks, openTail,
    flatten_fulls_append_leftover (one_le_groupSize config), List.flatten_append,
    List.append_assoc, flatten_fulls_append_leftover hsize]

end Completed

end Pgzf
