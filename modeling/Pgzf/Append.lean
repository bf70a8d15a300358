import Pgzf.AnyWriter
import Pgzf.Cuts

/-!
# Appending to what is there

A writer on a sink that holds `pre` leaves `pre` as it is, at every moment of its run, and writes
behind it what it would have written into an empty sink. Files of whole groups may follow each
other, and so the outputs of several writers read as one file, each with block and group sizes of
its own.
-/

namespace Pgzf

open PgzfReader PgzfWriter PgzfIndex Program

variable {D : Deps}

/-! ### Behind other content -/

theorem overwrite_append (pre content : Bytes) (pos : Nat) (data : Bytes) :
    overwrite (pre ++ content) (pre.length + pos) data = pre ++ overwrite content pos data := by
  have htake : (pre ++ content).take (pre.length + pos) = pre ++ content.take pos := by
    rw [List.take_append, List.take_of_length_le (Nat.le_add_right _ _), Nat.add_sub_cancel_left]
  have hdrop : (pre ++ content).drop (pre.length + pos + data.length) = content.drop
      (pos + data.length) := by
    rw [Nat.add_assoc, ← List.drop_drop, List.drop_left]
  have hgap : pre.length + pos - (pre ++ content).length = pos - content.length := by
    rw [List.length_append]
    omega
  rw [overwrite, overwrite, htake, hdrop, hgap]
  simp only [List.append_assoc]

/-- Operations moved along by the length of `pre` leave
`pre` in front of what they leave in an empty sink. -/
theorem replay_shift (pre : Bytes) (ops : List SinkOp) (c : Cursor) :
    replay (ops.map (SinkOp.shift pre.length)) ⟨pre ++ c.bytes, pre.length + c.pos⟩ =
      ⟨pre ++ (replay ops c).bytes, pre.length + (replay ops c).pos⟩ := by
  induction ops generalizing c with
  | nil => rfl
  | cons op ops ih =>
    rw [List.map_cons, replay_cons, replay_cons, ← ih]
    congr 1
    cases op with
    | writeAll data => simp only [SinkOp.shift, SinkOp.run, overwrite_append, Nat.add_assoc]
    | seek offset => rfl
    | streamPosition => rfl

/-- What a sink that began with `content`, its stream at the end, held after the first `k`
operations it has seen. -/
def heldAfter (content : Bytes) (sink : Sink) (k : Nat) : Bytes :=
  (replay (sink.log.take k) ⟨content, content.length⟩).bytes

/-- The sink `b`, which began with `pre`, held `pre` and behind it what `a` held, which began empty:
after every operation, and now. -/
def Appended (pre : Bytes) (a b : Sink) : Prop :=
  a.log.length = b.log.length ∧ (∀ k, heldAfter pre b k = pre ++ heldAfter [] a k) ∧
    b.cursor.bytes = pre ++ a.cursor.bytes

theorem Moved.appended {pre : Bytes} {a b : Sink} (h : Moved (Sink.atEnd pre) a b) :
    Appended pre a b := by
  obtain ⟨ops, rfl, rfl⟩ := h
  have hshift : ∀ ops : List SinkOp,
      (replay (ops.map (SinkOp.shift pre.length)) ⟨pre, pre.length⟩).bytes =
      pre ++ (replay ops ⟨[], 0⟩).bytes := by
    intro ops
    have hreplay := congrArg Cursor.bytes (replay_shift pre ops ⟨[], 0⟩)
    rwa [List.append_nil] at hreplay
  refine ⟨?_, fun k => ?_, hshift ops⟩
  · simp only [Sink.after, Sink.atEnd, List.nil_append, List.length_map]
  · simp only [heldAfter, Sink.after, Sink.atEnd, List.nil_append, ← List.map_take]
    exact hshift _

/-- Whatever the calls, and also where they fail: a run
on `pre` appends what it writes into an empty sink. -/
theorem runCalls_appended (pre : Bytes) (config : PgzfConfig) (calls : List WriteCall) :
    Ends (fun w₀ w => Appended pre w₀.inner w.inner) (Appended pre)
      (runCalls D (Sink.atEnd []) config calls)
      (runCalls D (Sink.atEnd pre) config calls) := by
  have hends := ends_runCalls (D := D) (show (Sink.atEnd pre).faults = [] from rfl) config calls
  cases hrun : runCalls D (Sink.atEnd []) config calls with
  | ok out w₀ =>
    rw [hrun] at hends
    obtain ⟨out', w, hrun', hmoved, hshifted⟩ := hends.of_ok
    rw [hrun']
    exact ⟨hmoved.appended, hshifted.inner.appended⟩
  | error fault w₀ =>
    rw [hrun] at hends
    obtain ⟨w, hrun', hshifted⟩ := hends.of_error
    rw [hrun']
    exact ⟨rfl, hshifted.inner.appended⟩

/-! ### The writer's groups among those of any writer -/

def SpecGroup.ofBlocks (D : Deps) (level : Nat) (blocks : List Bytes) : SpecGroup :=
  ⟨blocks.map fun data => ⟨data, deflated D level data⟩, deflated D level []⟩

namespace SpecGroup

variable {level : Nat} {blocks : List Bytes}

variable (D level) in
theorem members_ofBlocks (gc : UInt64) (blocks : List Bytes) :
    (ofBlocks D level blocks).members D gc = groupMembers D level gc blocks := by
  cases blocks with
  | nil => rfl
  | cons first rest =>
    rw [groupMembers]
    simp only [members, ofBlocks, List.map_cons, List.map_map]
    rfl

variable (D level) in
theorem idxSize_ofBlocks (blocks : List Bytes) :
    (ofBlocks D level blocks).idxSize = Pgzf.idxSize D level blocks.length := by
  rw [SpecGroup.idxSize, Pgzf.idxSize, ofBlocks, List.length_map]

variable (D level) in
theorem idxMember_ofBlocks (blocks : List Bytes) :
    (ofBlocks D level blocks).idxMember = Pgzf.idxMember D level (groupEntries D level blocks) := by
  have hentries : (ofBlocks D level blocks).entries = groupEntries D level blocks := by
    cases blocks with
    | nil => rfl
    | cons first rest =>
      rw [groupEntries]
      simp only [entries, ofBlocks, List.map_cons, List.map_map]
      rfl
  have hsize := idxSize_ofBlocks D level blocks
  rw [SpecGroup.idxMember, Pgzf.idxMember, hentries, length_groupEntries, SpecGroup.idxZc,
    Pgzf.idxZc, hsize, List.append_assoc]
  rfl

@[simp] theorem datas_ofBlocks : (ofBlocks D level blocks).datas = blocks := by
  rw [datas, ofBlocks, List.map_map]
  exact List.map_id _

theorem bytes_ofBlocks (h : GroupFits D level (2 ^ 30) blocks) :
    (ofBlocks D level blocks).bytes D = groupBytes D level blocks := by
  have hgc : (ofBlocks D level blocks).gc D = groupGc D level blocks := by
    rw [SpecGroup.gc, membersSize, members_ofBlocks, groupGc, sum_compressedSizes h (by decide)]
  rw [SpecGroup.bytes, hgc, members_ofBlocks, idxMember_ofBlocks, groupBytes, groupWith]

theorem conforms_ofBlocks (h : GroupFits D level (2 ^ 30) blocks)
    (hinflates : GroupInflates D level blocks) (hidx : D.Inflates (deflated D level []) []) :
    (ofBlocks D level blocks).Conforms D := by
  refine ⟨?_, ?_, ?_, ?_, ?_, hidx, ?_⟩
  · simpa [ofBlocks] using h.ne_nil
  · simpa [ofBlocks] using h.length_le
  · intro block hblock
    obtain ⟨data, hdata, rfl⟩ := List.mem_map.mp hblock
    exact (h.data data hdata).2
  · intro block hblock
    obtain ⟨data, hdata, rfl⟩ := List.mem_map.mp hblock
    exact hinflates data hdata
  · rw [members_ofBlocks]
    exact h.member
  · rw [idxSize_ofBlocks]
    exact h.idx

end SpecGroup

/-! ### Outputs one after another -/

section Outputs

variable {config : PgzfConfig} {calls : List WriteCall}

variable (D) in
/-- The outputs of writers within the limits of the
format, one after another, and what was handed to them. -/
inductive Concatenated : Bytes → Bytes → Prop
  | nil : Concatenated [] []
  | append {content data : Bytes} {config : PgzfConfig} {calls : List WriteCall} {out : Sink}
    {w : PgzfWriter} :
    Concatenated content data → WithinLimits D (2 ^ 30) config (calls.flatMap WriteCall.bytes) →
      Codec D config (calls.flatMap WriteCall.bytes) →
        runCalls D (Sink.atEnd []) config calls = .ok out w →
        Concatenated (content ++ out.cursor.bytes) (data ++ calls.flatMap WriteCall.bytes)

variable (D) in
/-- `new` opens these bytes, reading them to the end delivers
`data`, and so many blocks and groups are counted. -/
def Holding (bytes data : Bytes) (blocks groups : Nat) : Prop :=
  ∃ reader s', new D ⟨bytes, 0, []⟩ = .ok reader s' ∧ Delivers reader data ∧
    ∃ index, reader.index = some index ∧ index.blockCount = blocks ∧ index.groupCount = groups

theorem specFile_append (groups groups' : List SpecGroup) :
    specFile D (groups ++ groups') = specFile D groups ++ specFile D groups' := List.flatMap_append

theorem specDatas_append (groups groups' : List SpecGroup) :
    specDatas (groups ++ groups') = specDatas groups ++ specDatas groups' := List.flatMap_append

theorem holding_specFile {groups : List SpecGroup} (h : ∀ group ∈ groups, group.Conforms D)
    (hne : groups ≠ []) (hfull : [] ∉ specDatas groups)
    (hsize : (specFile D groups).length < 2 ^ 64) :
    Holding D (specFile D groups) (specDatas groups).flatten
      (specDatas groups).length groups.length := by
  obtain ⟨count, hruns⟩ := runs_specFile h hsize
  have hall : (specDatas groups).Pairwise fun a b => a = [] → b = [] :=
    List.pairwise_of_forall_mem_list fun a ha _ _ hnil => absurd (hnil ▸ ha) hfull
  rw [takeWhile_nonempty_eq hall] at hruns
  exact ⟨_, _, new_specFile h hne hsize 0, hruns.delivers, _, rfl,
    blockCount_specIndex D groups, rfl⟩

/-- The output of a writer within the limits is a conforming file with the blocks of the payload. -/
theorem specFile_of_runCalls
    (hlimits : WithinLimits D (2 ^ 30) config (calls.flatMap WriteCall.bytes))
    (hcodec : Codec D config (calls.flatMap WriteCall.bytes)) :
    ∃ out w groups, runCalls D (Sink.atEnd []) config calls = .ok out w ∧
      (∀ group ∈ groups, group.Conforms D) ∧
      specFile D groups = out.cursor.bytes ∧ out.cursor.bytes.length < 2 ^ 64 ∧
      specDatas groups = config.blocksOf (calls.flatMap WriteCall.bytes) ∧
      groups.length = (config.groupsOf (calls.flatMap WriteCall.bytes)).length := by
  have hfits := hlimits.fits
  obtain ⟨w, hrun, hrep⟩ := runCalls_represents hlimits.blockSize_pos hlimits.allocated
    hlimits.batchSize_pos hcodec.compresses []
  refine ⟨w.inner, w, (config.groupsOf (calls.flatMap WriteCall.bytes)).map
    (SpecGroup.ofBlocks D config.compressionLevel), hrun, ?_, ?_, ?_, ?_, List.length_map _⟩
  · intro group hgroup
    obtain ⟨blocks, hblocks, rfl⟩ := List.mem_map.mp hgroup
    exact SpecGroup.conforms_ofBlocks (hfits blocks hblocks) (hcodec.inflates blocks hblocks)
      (hcodec [] List.mem_cons_self).inflates
  · rw [hrep.cursor, specFile, List.flatMap_map, List.nil_append, fileBytes]
    exact List.flatMap_congr fun blocks hblocks => SpecGroup.bytes_ofBlocks (hfits blocks hblocks)
  · rw [hrep.cursor]
    exact hlimits.addressable
  · rw [specDatas, List.flatMap_map, ← flatten_groupsOf, ← List.flatMap_id]
    exact List.flatMap_congr fun blocks _ => SpecGroup.datas_ofBlocks

theorem nil_notMem_blocksOf (hsize : 1 ≤ config.blockSize) (payload : Bytes) :
    [] ∉ config.blocksOf payload :=
  fun hmem => Chunks.ne_nil_of_mem_chunks hsize hmem rfl

theorem Concatenated.specFile {content data : Bytes} (h : Concatenated D content data) :
    ∃ groups, (∀ group ∈ groups, group.Conforms D) ∧ specFile D groups = content ∧
      (specDatas groups).flatten = data ∧ [] ∉ specDatas groups := by
  induction h with
  | nil => exact ⟨[], fun _ hmem => absurd hmem List.not_mem_nil, rfl, rfl, List.not_mem_nil⟩
  | append _ hlimits hcodec hrun ih =>
    obtain ⟨groups, hconforms, rfl, rfl, hfull⟩ := ih
    obtain ⟨out, w, groups', hrun', hconforms', hbytes, -, hdatas, -⟩ :=
      specFile_of_runCalls hlimits hcodec
    obtain ⟨rfl, rfl⟩ := EStateM.Result.ok.inj (hrun.symm.trans hrun')
    refine ⟨groups ++ groups', ?_, ?_, ?_, ?_⟩
    · intro group hgroup
      exact (List.mem_append.mp hgroup).elim (hconforms group) (hconforms' group)
    · rw [specFile_append, hbytes]
    · rw [specDatas_append, List.flatten_append, hdatas, flatten_blocksOf hlimits.blockSize_pos]
    · rw [specDatas_append, List.mem_append, hdatas]
      exact fun hmem => hmem.elim hfull (nil_notMem_blocksOf hlimits.blockSize_pos _)

/-- A run on `pre` leaves `pre` as it is and appends what it writes into an empty sink, operation by
operation. Where `pre` is the output of writers, for data that are not empty, the result reads as
those data and the payload behind them, and the numbers of blocks and groups add up. -/
theorem append_reads (pre : Bytes)
    (hlimits : WithinLimits D (2 ^ 30) config (calls.flatMap WriteCall.bytes))
    (hcodec : Codec D config (calls.flatMap WriteCall.bytes)) :
    ∃ out₀ w₀ out w, runCalls D (Sink.atEnd []) config calls = .ok out₀ w₀ ∧
      runCalls D (Sink.atEnd pre) config calls = .ok out w ∧ Appended pre out₀ out ∧
      (calls.flatMap WriteCall.bytes ≠ [] →
        Holding D out₀.cursor.bytes (calls.flatMap WriteCall.bytes)
        (config.blocksOf (calls.flatMap WriteCall.bytes)).length
          (config.groupsOf (calls.flatMap WriteCall.bytes)).length) ∧
      ∀ data, Concatenated D pre data → data ≠ [] → out.cursor.bytes.length < 2 ^ 64 →
        ∃ blocks groups, Holding D pre data blocks groups ∧
          Holding D out.cursor.bytes (data ++ calls.flatMap WriteCall.bytes)
            (blocks + (config.blocksOf (calls.flatMap WriteCall.bytes)).length)
            (groups + (config.groupsOf (calls.flatMap WriteCall.bytes)).length) := by
  obtain ⟨out₀, w₀, groups', hrun₀, hconforms', hbytes', haddress, hdatas', hcount'⟩ :=
    specFile_of_runCalls hlimits hcodec
  have hends := runCalls_appended (D := D) pre config calls
  rw [hrun₀] at hends
  obtain ⟨out, w, hrun, hout, -⟩ := hends.of_ok
  have hsize := hlimits.blockSize_pos
  have hfull' : [] ∉ specDatas groups' := by
    rw [hdatas']
    exact nil_notMem_blocksOf hsize _
  have hpayload : (specDatas groups').flatten = calls.flatMap WriteCall.bytes := by
    rw [hdatas', flatten_blocksOf hsize]
  refine ⟨out₀, w₀, out, w, hrun₀, hrun, hout, ?_, ?_⟩
  · intro hne
    have hgroups : groups' ≠ [] := by
      rintro rfl
      exact hne hpayload.symm
    rw [← hbytes'] at haddress
    have hnew := holding_specFile hconforms' hgroups hfull' haddress
    rwa [hbytes', hpayload, hdatas', hcount'] at hnew
  · intro data hcat hne hroom
    obtain ⟨groups, hconforms, rfl, rfl, hfull⟩ := hcat.specFile
    have hgroups : groups ≠ [] := by
      rintro rfl
      exact hne rfl
    have hall : ∀ group ∈ groups ++ groups', group.Conforms D := fun group hgroup =>
      (List.mem_append.mp hgroup).elim (hconforms group) (hconforms' group)
    have hfullAll : [] ∉ specDatas (groups ++ groups') := by
      rw [specDatas_append, List.mem_append]
      exact fun hmem => hmem.elim hfull hfull'
    rw [hout.2.2, ← hbytes', ← specFile_append] at hroom ⊢
    have hboth := holding_specFile hall (List.append_ne_nil_of_left_ne_nil hgroups _) hfullAll hroom
    rw [specDatas_append, List.flatten_append, hpayload, List.length_append, List.length_append,
      hdatas', hcount'] at hboth
    refine ⟨_, _, holding_specFile hconforms hgroups hfull ?_, hboth⟩
    rw [specFile_append, List.length_append] at hroom
    omega

/-! ### A sample -/

def Stored.behindConfig : PgzfConfig := ⟨3, 1, 0, none, none, 1000⟩

def Stored.behindCalls : List WriteCall := [.write [104, 105, 106, 107]]

theorem append_reads_sample :
    ∃ out w, runCalls Stored.deps (Sink.atEnd Stored.sampleFile) Stored.behindConfig
      Stored.behindCalls = .ok out w ∧
      ∃ blocks groups,
        Holding Stored.deps Stored.sampleFile [97, 98, 99, 100, 101, 102, 103] blocks groups ∧
        Holding Stored.deps out.cursor.bytes [97, 98, 99, 100, 101, 102, 103, 104, 105, 106, 107]
          (blocks + 2) (groups + 2) := by
  have hfirst : Concatenated Stored.deps Stored.sampleFile Stored.sampleBufs.flatten := by
    have hlimits : WithinLimits Stored.deps (2 ^ 30) Stored.sampleConfig
      ([WriteCall.write Stored.sampleBufs.flatten].flatMap WriteCall.bytes) :=
        Stored.sample_withinLimits
    have hcodec : Codec Stored.deps Stored.sampleConfig
      ([WriteCall.write Stored.sampleBufs.flatten].flatMap WriteCall.bytes) := Stored.sample_codec
    obtain ⟨w, hrun, hrep⟩ := runCalls_represents hlimits.blockSize_pos hlimits.allocated
      hlimits.batchSize_pos hcodec.compresses []
    have hall := Concatenated.append .nil hlimits hcodec hrun
    rw [hrep.cursor] at hall
    exact hall
  have hlimits : WithinLimits Stored.deps (2 ^ 30) Stored.behindConfig
      (Stored.behindCalls.flatMap WriteCall.bytes) :=
    ⟨by decide, by decide, by decide, by decide, by decide +kernel, by decide +kernel,
      by decide +kernel⟩
  have hcodec : Codec Stored.deps Stored.behindConfig
      (Stored.behindCalls.flatMap WriteCall.bytes) :=
    Stored.codec_of_length_lt (by decide)
  obtain ⟨out₀, w₀, out, w, hrun₀, hrun, happ, -, hread⟩ :=
    append_reads Stored.sampleFile hlimits hcodec
  have hroom : out.cursor.bytes.length < 2 ^ 64 := by
    obtain ⟨w', hrun', hrep⟩ := runCalls_represents hlimits.blockSize_pos hlimits.allocated
      hlimits.batchSize_pos hcodec.compresses []
    obtain ⟨rfl, rfl⟩ := EStateM.Result.ok.inj (hrun₀.symm.trans hrun')
    rw [happ.2.2, hrep.cursor]
    decide +kernel
  exact ⟨out, w, hrun, hread _ hfirst (by decide) hroom⟩

end Outputs

end Pgzf
