import Pgzf.Completed
import Pgzf.Library.FaultPattern

/-!
# What a flush asks of the sink

A flush of a group performs three operations for each block, three for the index member, four to
write the length of the group and one to ask for the position. It succeeds where all of them do and
everything compresses, and reports an error otherwise.
-/

namespace Pgzf

open PgzfWriter Program FaultPattern

variable {D : Deps} {level : Nat} {w w₀ : PgzfWriter}

namespace PgzfWriter

def faults (w : PgzfWriter) : List (Option WriteFault) := w.inner.faults

/-- The open data of a writer: what the operations of the sink leave alone. -/
structure SameOpen (w w' : PgzfWriter) : Prop where
  config : w'.config = w.config
  buffer : w'.buffer = w.buffer
  bufferLen : w'.bufferLen = w.bufferLen
  pendingBlocks : w'.pendingBlocks = w.pendingBlocks
  blocksInGroup : w'.blocksInGroup = w.blocksInGroup
  gcPending : w'.gcPending = w.gcPending

def flushed (w : PgzfWriter) : PgzfWriter :=
  { w with pendingBlocks := [], blocksInGroup := 0, gcPending := false }

end PgzfWriter

abbrev SpendsOpen {α : Type} (m : Prog PgzfWriter α) (w₀ w : PgzfWriter) (c : Prop) (n : Nat) :
    Prop :=
  Spends faults m w c n (fun _ w' => SameOpen w₀ w') Fault.IsError

theorem Sink.spends_perform (op : SinkOp) (s : Sink) :
    Spends Sink.faults (perform op) s True 1 (fun _ _ => True) Fault.IsError := by
  obtain ⟨cursor, pattern, log⟩ := s
  match pattern with
  | [] => exact spends_ok rfl trivial (clean_nil 1) rfl trivial
  | none :: rest => exact spends_ok rfl trivial (by simp [Clean]) rfl trivial
  | some e :: rest => exact spends_error rfl (by simp [Clean]) ⟨_, rfl⟩

theorem spends_onInner {α : Type} {m : Prog Sink α} {n : Nat} (h : SameOpen w₀ w)
    (hm : Spends Sink.faults m w.inner True n (fun _ _ => True) Fault.IsError) :
    SpendsOpen (onInner m) w₀ w True n :=
  hm.onPart rfl (fun _ => rfl) fun _ _ _ => ⟨h.1, h.2, h.3, h.4, h.5, h.6⟩

theorem spends_perform (h : SameOpen w₀ w) (op : SinkOp) :
    SpendsOpen (onInner (Sink.perform op)) w₀ w True 1 :=
  spends_onInner h (Sink.spends_perform op w.inner)

theorem spends_streamPosition (h : SameOpen w₀ w) :
    SpendsOpen (onInner Sink.streamPosition) w₀ w True 1 := by
  apply spends_onInner h
  rw [Sink.streamPosition]
  exact (Sink.spends_perform .streamPosition w.inner).perform fun _ _ _ =>
    spends_free rfl rfl trivial

theorem spends_ofExcept {α : Type} (result : Except PgzfError α) (w : PgzfWriter) :
    Spends faults (Prog.ofExcept result) w (∃ a, result = .ok a) 0 (fun a w' => result = .ok a ∧
      w' = w) Fault.IsError := by
  cases result with
  | ok a => exact spends_ok rfl ⟨a, rfl⟩ (clean_zero _) rfl ⟨rfl, rfl⟩
  | error e => exact spends_error rfl (by simp) ⟨e, rfl⟩

/-! ### The members of a group -/

theorem spends_writeCompressed (h : SameOpen w₀ w) (cb : CompressedBlock) :
    SpendsOpen (writeCompressed cb) w₀ w True 3 := by
  apply Spends.congr _ Iff.rfl (show 1 + (1 + (1 + 0)) = 3 from rfl)
  refine (spends_perform h _).perform fun _ _ h₁ => (spends_perform h₁ _).perform fun _ _ h₂ =>
    (spends_perform h₂ _).perform fun _ _ h₃ => ?_
  exact spends_free rfl rfl ⟨h₃.1, h₃.2, h₃.3, h₃.4, h₃.5, h₃.6⟩

theorem mapM_compressSingleBlock (batch : List PendingBlock) :
    (∃ compressed, batch.mapM (fun block =>
      compressSingleBlock D level block.data block.blockType) = .ok compressed) ↔
      ∀ block ∈ batch, ∃ out, compressBlock D level block.data = .ok out := by
  constructor
  · intro hcompresses block hblock
    obtain ⟨compressed, hall⟩ := hcompresses
    obtain ⟨cb, hcb⟩ := of_mapM_except_ok hall block hblock
    exact compresses_of_compressSingleBlock hcb
  · intro hcompress
    refine ⟨batch.map (compressedOf D level), mapM_except_ok fun block hblock => ?_⟩
    obtain ⟨out, hout⟩ := hcompress block hblock
    exact compressSingleBlock_eq hout

theorem spends_writeBatch (h : SameOpen w₀ w) (batch : List PendingBlock) :
    SpendsOpen (writeBatch D level batch) w₀ w (∀ block ∈ batch, ∃ out,
      compressBlock D level block.data = .ok out)
      (3 * batch.length) := by
  have hwrite : ∀ compressed mid,
      (batch.mapM (fun block => compressSingleBlock D level block.data block.blockType) =
        .ok compressed ∧ mid = w) →
        SpendsOpen (compressed.mapM writeCompressed) w₀ mid True (3 * batch.length) := by
    intro compressed mid hmid
    obtain ⟨hall, rfl⟩ := hmid
    have hsame := mapM_except_ok fun block hblock => by
      obtain ⟨out, hout⟩ := (mapM_compressSingleBlock batch).mp ⟨compressed, hall⟩ block hblock
      exact compressSingleBlock_eq hout
    obtain rfl := Except.ok.inj (hall.symm.trans hsame)
    apply (Spends.mapM (fun cb _ mid hmid => spends_writeCompressed hmid cb) h).congr
    · simp
    · rw [List.map_const', List.sum_replicate_nat, List.length_map, Nat.mul_comm]
  apply ((spends_ofExcept _ w).bind hwrite).congr
  · rw [and_true, mapM_compressSingleBlock]
  · exact Nat.zero_add _

theorem sum_map_mul_length {α : Type} (k : Nat) (pieces : List (List α)) :
    (pieces.map fun piece => k * piece.length).sum = k * pieces.flatten.length := by
  induction pieces with
  | nil => rfl
  | cons piece rest ih =>
    rw [List.map_cons, List.sum_cons, ih, List.flatten_cons, List.length_append, Nat.mul_add]

theorem spends_batches (h : SameOpen w₀ w) {n : Nat} (hn : 0 < n) (blocks : List PendingBlock) :
    SpendsOpen ((Chunks.chunks n blocks).mapM (writeBatch D level)) w₀ w
      (∀ block ∈ blocks, ∃ out, compressBlock D level block.data = .ok out)
        (3 * blocks.length) := by
  have hbatch : ∀ batch ∈ Chunks.chunks n blocks, ∀ mid, SameOpen w₀ mid →
      SpendsOpen (writeBatch D level batch) w₀ mid _ _ :=
    fun batch _ mid hmid => spends_writeBatch hmid batch
  apply (Spends.mapM hbatch h).congr
  · conv_rhs => rw [← Chunks.flatten_chunks hn blocks]
    simp only [List.mem_flatten, forall_exists_index, and_imp]
    exact ⟨fun hall block batch hbatch hblock => hall batch hbatch block hblock,
      fun hall batch hbatch block hblock => hall block batch hbatch hblock⟩
  · rw [sum_map_mul_length, Chunks.flatten_chunks hn]

theorem spends_writeIdx (h : SameOpen w₀ w) (entries : List IndexEntry) :
    SpendsOpen (writeIdx D level entries) w₀ w (∃ out, compressBlock D level [] = .ok out) 3 := by
  apply Spends.congr _ (and_iff_left trivial) (show 0 + (1 + (1 + (1 + 0))) = 3 from rfl)
  apply (spends_ofExcept _ w).bind
  intro out mid hmid
  obtain ⟨-, rfl⟩ := hmid
  refine (spends_perform h _).perform fun _ _ h₁ => (spends_perform h₁ _).perform fun _ _ h₂ =>
    (spends_perform h₂ _).perform fun _ _ h₃ => ?_
  exact spends_free rfl rfl ⟨h₃.1, h₃.2, h₃.3, h₃.4, h₃.5, h₃.6⟩

theorem spends_backpatchGc (h : SameOpen w₀ w) (hgc : w₀.gcPending = true)
    (entries : List IndexEntry) :
    SpendsOpen (backpatchGc entries) { w₀ with gcPending := false } w True 4 := by
  apply Spends.congr _ Iff.rfl (show 1 + (1 + (1 + (1 + 0))) = 4 from rfl)
  rw [backpatchGc]
  apply Spends.after (get_apply w) rfl
  rw [if_pos (h.gcPending.trans hgc)]
  refine (spends_streamPosition h).perform fun _ _ h₁ => (spends_perform h₁ _).perform fun _ _ h₂ =>
    (spends_perform h₂ _).perform fun _ _ h₃ => (spends_perform h₃ _).perform fun _ _ h₄ => ?_
  exact spends_free rfl rfl ⟨h₄.1, h₄.2, h₄.3, h₄.4, h₄.5, rfl⟩

/-! ### Flushes -/

def groupCost (blocks : List Bytes) : Nat := 3 * blocks.length + 8

def Flushable (D : Deps) (config : PgzfConfig) (blocks : List Bytes) : Prop :=
  0 < config.compressionBatchSize ∧ ∀ data ∈ [] :: blocks, ∃ out,
    compressBlock D config.compressionLevel data = .ok out

def groupsCost (groups : List (List Bytes)) : Nat := (groups.map groupCost).sum

def AllFlushable (D : Deps) (config : PgzfConfig) (groups : List (List Bytes)) : Prop :=
  ∀ blocks ∈ groups, Flushable D config blocks

theorem groupsCost_append (groups groups' : List (List Bytes)) :
    groupsCost (groups ++ groups') = groupsCost groups + groupsCost groups' := by
  rw [groupsCost, List.map_append, List.sum_append, groupsCost, groupsCost]

theorem allFlushable_nil (D : Deps) (config : PgzfConfig) : AllFlushable D config [] :=
  fun _ hmem => absurd hmem List.not_mem_nil

theorem allFlushable_append {config : PgzfConfig} {groups groups' : List (List Bytes)} :
    AllFlushable D config (groups ++ groups') ↔ AllFlushable D config groups ∧
      AllFlushable D config groups' :=
  List.forall_mem_append

theorem flushGroup_closed (h : w.pendingBlocks = []) : flushGroup D w = .ok () w := by
  rw [flushGroup, bind_ok (get_apply _), h]
  rfl

theorem flushGroup_batchless (hne : w.pendingBlocks ≠ [])
    (hbatch : w.config.compressionBatchSize = 0) :
    flushGroup D w = .error (.panic "chunk size must be non-zero") w := by
  have hopen : ¬ w.pendingBlocks.isEmpty = true := by simpa using hne
  rw [flushGroup, bind_ok (get_apply _), if_neg hopen, if_pos hbatch, throw_apply]

theorem spends_flushGroup (hne : w.pendingBlocks ≠ []) (hbatch : 0 < w.config.compressionBatchSize)
    (hgc : w.gcPending = true) :
    SpendsOpen (flushGroup D) w.flushed w
      (Flushable D w.config (w.pendingBlocks.map PendingBlock.data))
      (groupCost (w.pendingBlocks.map PendingBlock.data)) := by
  have hopen : ¬ w.pendingBlocks.isEmpty = true := by simpa using hne
  have hstart : SameOpen w w := ⟨rfl, rfl, rfl, rfl, rfl, rfl⟩
  rw [flushGroup]
  apply Spends.after (get_apply w) rfl
  rw [if_neg hopen, if_neg (Nat.ne_of_gt hbatch)]
  apply Spends.congr (c := (∀ block ∈ w.pendingBlocks, ∃ out,
    compressBlock D w.config.compressionLevel block.data = .ok out) ∧
    (∃ out, compressBlock D w.config.compressionLevel [] = .ok out) ∧ True)
    (n := 3 * w.pendingBlocks.length + (3 + (4 + (1 + 0))))
  · refine (spends_batches hstart hbatch w.pendingBlocks).bind fun entries _ h₁ =>
        (spends_writeIdx h₁ _).bind fun _ _ h₂ =>
      (spends_backpatchGc h₂ hgc _).perform fun _ mid h₃ => ?_
    apply Spends.after (modify_apply _ mid) rfl
    have h₄ : SameOpen w.flushed { mid with blocksInGroup := 0, pendingBlocks := [] } :=
      ⟨h₃.1, h₃.2, h₃.3, rfl, rfl, h₃.6⟩
    refine (spends_streamPosition h₄).perform fun offset last h₅ => ?_
    exact spends_free rfl rfl ⟨h₅.1, h₅.2, h₅.3, h₅.4, h₅.5, h₅.6⟩
  · simp only [Flushable, hbatch, true_and, and_true, List.mem_cons, List.mem_map, forall_eq_or_imp,
      forall_exists_index, and_imp, forall_apply_eq_imp_iff₂]
    exact and_comm
  · rw [groupCost, List.length_map]

end Pgzf
