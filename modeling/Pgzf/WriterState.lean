import Pgzf.Cuts
import Pgzf.Shape

/-!
# The state of a writer between calls

The fields of a writer say the same thing more than once: the open group is its pending blocks and
their count, the position of the sink is the start of the group, the totals are what has been
written. Whatever the calls and wherever the sink stands, they agree between the calls.
-/

namespace Pgzf

open PgzfWriter

variable (D : Deps)

/-- The fields of a writer agree: its sink stood at `start` when it was created, and it has been
given `count` bytes since. The groups in the sink are given with their members. -/
structure Consistent (config : PgzfConfig) (start count : Nat) (w : PgzfWriter) : Prop where
  buffer_length : w.buffer.length = config.blockSize
  bufferLen_lt : w.bufferLen < config.blockSize
  pending_length : w.pendingBlocks.length = w.blocksInGroup
  blocksInGroup_lt : w.blocksInGroup < max 1 config.groupBlocks
  pending : ∀ j block, w.pendingBlocks[j]? = some block →
    block.blockType = (if j = 0 then .beg else .dat) ∧ block.data.length = config.blockSize
  gcPending_iff : w.gcPending = true ↔ w.pendingBlocks ≠ []
  groupStartOffset : w.groupStartOffset = w.inner.cursor.pos
  start_le : start ≤ w.inner.cursor.pos
  totalCompressed : w.totalCompressed = w.inner.cursor.pos - start
  totalBlocks : ∃ layout : List FileGroup,
    slice w.inner.cursor.bytes start w.inner.cursor.pos = layout.flatMap FileGroup.bytes ∧
    (∀ group ∈ layout, (∀ member ∈ group.members, ∃ fields, IsMember member fields ∧
      fields.ix = none) ∧ ∃ entries, group.idx = idxMember D config.compressionLevel entries) ∧
    w.totalBlocks = (layout.map fun group => group.members.length).sum
  count_eq : w.bytesWritten + (w.pendingBlocks.map fun block => block.data.length).sum +
    w.bufferLen = count

variable {D} {level : Nat}

/-! ### Sizes -/

def MembersFit (D : Deps) (level : Nat) (blocks : List Bytes) : Prop :=
  (∀ member ∈ groupMembers D level 0 blocks, member.length < 2 ^ 32) ∧
    idxSize D level blocks.length < 2 ^ 32

theorem groupZcSum_eq {blocks : List Bytes} (h : MembersFit D level blocks) :
    groupZcSum D level blocks = (groupBytes D level blocks).length := by
  rw [groupZcSum, compressedSizes_of_lt h.1, RunningSum.sum_map_length, idxZc_toNat h.2, groupBytes,
    length_groupWith]

theorem sum_groupZcSum {groups : List (List Bytes)}
    (h : ∀ blocks ∈ groups, MembersFit D level blocks) :
    (groups.map (groupZcSum D level)).sum = (fileBytes D level groups).length := by
  induction groups with
  | nil => rfl
  | cons blocks groups ih =>
    rw [List.map_cons, List.sum_cons, groupZcSum_eq (h blocks List.mem_cons_self),
      ih fun b hb => h b (List.mem_cons_of_mem _ hb), fileBytes_cons, List.length_append]

theorem sum_groupIsizeSum {groups : List (List Bytes)}
    (h : ∀ data ∈ groups.flatten, data.length < 2 ^ 32) :
    (groups.map (groupIsizeSum D level)).sum = groups.flatten.flatten.length := by
  induction groups with
  | nil => rfl
  | cons blocks groups ih =>
    rw [List.flatten_cons] at h ⊢
    rw [List.map_cons, List.sum_cons, ih fun data hdata => h data (List.mem_append_right _ hdata),
      groupIsizeSum,
      uncompressedSizes_of_lt fun data hdata => h data (List.mem_append_left _ hdata),
        RunningSum.sum_map_length,
      List.flatten_append, List.length_append]

/-! ### The members in the sink -/

theorem members_ofBlocks {blocks : List Bytes} (h : MembersFit D level blocks) :
    ∀ member ∈ (FileGroup.ofBlocks D level blocks).members, ∃ fields, IsMember member fields ∧
      fields.ix = none := by
  intro member hmember
  cases blocks with
  | nil => exact absurd hmember List.not_mem_nil
  | cons first rest =>
    rcases List.mem_cons.mp hmember with rfl | hmember
    · have hsize := h.1 _ List.mem_cons_self
      rw [length_begMember] at hsize
      exact ⟨_, isMember_begMember hsize, rfl⟩
    · obtain ⟨data, hdata, rfl⟩ := List.mem_map.mp hmember
      have hsize :=
        h.1 (datMember D level data) (List.mem_cons_of_mem _ (List.mem_map_of_mem hdata))
      rw [length_datMember] at hsize
      exact ⟨_, isMember_datMember hsize, rfl⟩

theorem length_members_ofBlocks (groups : List (List Bytes)) :
    ((groups.map (FileGroup.ofBlocks D level)).map fun group => group.members.length).sum =
      groups.flatten.length := by
  induction groups with
  | nil => rfl
  | cons blocks groups ih =>
    rw [List.map_cons, List.map_cons, List.sum_cons, ih, List.flatten_cons, List.length_append]
    exact congrArg (· + groups.flatten.length) (length_groupMembers D level _ blocks)

theorem getElem?_typed {blocks : List Bytes} {j : Nat} {block : PendingBlock}
    (h : (typed blocks)[j]? = some block) :
    block.blockType = (if j = 0 then .beg else .dat) ∧ blocks[j]? = some block.data := by
  cases blocks with
  | nil => exact absurd h (by simp [typed])
  | cons first rest =>
    cases j with
    | zero =>
      obtain rfl := Option.some.inj h
      exact ⟨rfl, rfl⟩
    | succ j =>
      rw [typed, List.getElem?_cons_succ, List.getElem?_map, Option.map_eq_some_iff] at h
      obtain ⟨data, hdata, rfl⟩ := h
      exact ⟨rfl, hdata⟩

theorem length_typed (blocks : List Bytes) : (typed blocks).length = blocks.length := by
  cases blocks <;> simp [typed]

theorem map_data_typed (blocks : List Bytes) :
    ((typed blocks).map fun block => block.data.length) = blocks.map List.length := by
  cases blocks with
  | nil => rfl
  | cons first rest => simp [typed]

/-! ### Between the calls -/

variable {config : PgzfConfig}

/-- A writer on an empty sink. -/
theorem consistent_of_carried (hblock : config.blockSize < 2 ^ 32) {payload : Bytes}
    {w₀ w : PgzfWriter} {s : Sink}
    (hmembers : ∀ blocks ∈ config.groupsOf payload, MembersFit D config.compressionLevel blocks)
    (h : Carried D [] config payload w₀) (hshift : Shifted s w₀ w) :
    Consistent D config s.cursor.pos payload.length w := by
  obtain ⟨groups, pending, tail, hrep, hfull, htail, rfl, -⟩ := h
  obtain ⟨inner, hmoved, rfl⟩ := hshift.exists_eq
  have hgroups : ∀ blocks ∈ groups, MembersFit D config.compressionLevel blocks :=
    fun blocks hmem =>
      hmembers blocks (by
        rw [hfull.groupsOf (Nat.zero_lt_of_lt htail) htail]
        exact List.mem_append_left _ hmem)
  have hne : ∀ blocks ∈ groups, blocks ≠ [] := fun blocks hmem =>
    List.ne_nil_of_length_pos (by rw [hfull.groupLength blocks hmem]; omega)
  have hsmall : ∀ data ∈ groups.flatten, data.length < 2 ^ 32 := fun data hdata => by
    rw [hfull.blockLength data (List.mem_append_left _ hdata)]
    exact hblock
  have hpos := hmoved.pos
  have hcursor := hrep.cursor
  rw [List.nil_append] at hcursor
  rw [hcursor] at hpos
  simp only at hpos
  have hstart := hrep.groupStartOffset
  rw [List.nil_append] at hstart
  -- what stands in the sink, behind the place where the writer began
  have hbytes : slice inner.cursor.bytes s.cursor.pos inner.cursor.pos =
      fileBytes D config.compressionLevel groups := by
    obtain ⟨ops, hops, rfl⟩ := hmoved
    have hlog := hrep.log
    rw [hops] at hlog hcursor
    simp only [Sink.after, Sink.atEnd, List.nil_append, List.length_nil] at hlog hcursor hpos ⊢
    have hinside : Inside ops ⟨[], 0⟩ := by
      rw [hlog]
      exact ⟨Nat.le_refl _, inside_fileOps D _ [] hne⟩
    have hprefix :=
      replay_shift_prefix hinside (show s.cursor.pos = s.cursor.pos + 0 from rfl) List.nil_prefix
    rw [hcursor] at hprefix
    rw [slice, hpos, List.drop_take, Nat.add_sub_cancel_left, ← List.prefix_iff_eq_take.mp hprefix]
  constructor
  · exact hrep.buffer_length
  · exact hrep.bufferLen.trans_lt htail
  · exact (congrArg List.length hrep.pendingBlocks).trans
      ((length_typed pending).trans hrep.blocksInGroup.symm)
  · exact hrep.blocksInGroup.trans_lt hfull.pendingLength
  · intro j block hblock
    simp only [hrep.pendingBlocks] at hblock
    obtain ⟨hty, hget⟩ := getElem?_typed hblock
    exact ⟨hty, hfull.blockLength _ (List.mem_append_right _ (List.mem_of_getElem? hget))⟩
  · rw [hrep.gcPending, hrep.pendingBlocks]
    cases pending <;> simp [typed]
  · rw [hpos, hstart]
  · simp only [hpos]
    exact Nat.le_add_right _ _
  · rw [hpos, Nat.add_sub_cancel_left, ← sum_groupZcSum hgroups, hrep.totalCompressed]
  · refine ⟨groups.map (FileGroup.ofBlocks D config.compressionLevel), ?_, ?_, ?_⟩
    · rw [hbytes, fileBytes_eq_flatMap]
    · intro group hgroup
      obtain ⟨blocks, hmem, rfl⟩ := List.mem_map.mp hgroup
      exact ⟨members_ofBlocks (hgroups blocks hmem), _, rfl⟩
    · rw [length_members_ofBlocks, hrep.totalBlocks]
  · rw [bytesWritten, hrep.totalUncompressed, hrep.pendingBlocks, map_data_typed, hrep.bufferLen,
      sum_groupIsizeSum hsmall, RunningSum.sum_map_length, accepted]
    simp only [List.length_append, List.flatten_append]

/-- Between any calls of the `Write` trait that all succeeded, the fields of the writer agree. -/
theorem writer_consistent (hsize : 1 ≤ config.blockSize) (hblock : config.blockSize < 2 ^ 32)
    {calls : List WriteCall}
    (hmembers : ∀ blocks ∈ config.groupsOf (calls.flatMap WriteCall.bytes),
      MembersFit D config.compressionLevel blocks)
    {s : Sink} (hs : s.faults = []) {w₀ : PgzfWriter} (hnew : withConfig s config = .ok () w₀)
    {answers : List Unit} {w : PgzfWriter} (hrun : (calls.mapM (call D)) w₀ = .ok answers w) :
    Consistent D config s.cursor.pos (calls.flatMap WriteCall.bytes).length w := by
  obtain ⟨hallocated, rfl⟩ := of_withConfig_ok hnew
  have hends := ends_calls (D := D) hs config calls
  rw [hrun] at hends
  obtain ⟨answers₀, w₀, hrun₀, -, hshift⟩ := hends.of_ok_right
  have hcarried := calls_of_ok hsize (carried_started [] hsize hallocated) hrun₀
  rw [List.nil_append] at hcarried
  exact consistent_of_carried hblock hmembers hcarried hshift

theorem writer_consistent_sample : ∃ w₀ answers w,
    withConfig (Sink.atEnd [7]) Stored.sampleConfig = .ok () w₀ ∧
      (Stored.sampleCalls.mapM (call Stored.deps)) w₀ = .ok answers w ∧
      Consistent Stored.deps Stored.sampleConfig 1 7 w := by
  have hcompress : Compresses Stored.deps Stored.sampleConfig
      ([] ++ Stored.sampleCalls.flatMap WriteCall.bytes) :=
    Stored.sample_codec.compresses
  have hallocated : Stored.sampleConfig.blockSize < 2 ^ 63 := by decide
  have hnew := withConfig_ok hallocated (Sink.atEnd [7])
  have hempty : Accepted Stored.deps [7] Stored.sampleConfig []
      (started (Sink.atEnd [7]) Stored.sampleConfig) :=
    ⟨[], [], [], represents_started _ hallocated, full_nil _, by decide, rfl⟩
  obtain ⟨answers, w, hrun, -⟩ := calls_accepted (by decide) (by decide) hcompress hempty
  have hmembers : ∀ blocks ∈ Stored.sampleConfig.groupsOf
      (Stored.sampleCalls.flatMap WriteCall.bytes), MembersFit Stored.deps 0 blocks := by
    intro blocks hblocks
    have hfits := Stored.sample_withinLimits.fits blocks hblocks
    exact ⟨fun member hmember => Nat.lt_of_le_of_lt (hfits.member member hmember) (by decide),
      Nat.lt_of_le_of_lt hfits.idx (by decide)⟩
  have hfaults : (Sink.atEnd [7]).faults = [] := rfl
  exact ⟨_, answers, w, hnew, hrun,
    writer_consistent (by decide) (by decide) hmembers hfaults hnew hrun⟩

end Pgzf
