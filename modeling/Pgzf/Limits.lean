import Pgzf.Sequential
import Pgzf.Stored
import Pgzf.Written

/-!
# Files within the format's limits

What the format allows of a configuration and a payload, and what is expected of the codec. Within
these limits a run of the writer leaves the groups of the payload, the index can be built from them,
and it describes the file.
-/

namespace Pgzf

open PgzfReader PgzfWriter PgzfIndex

variable (D : Deps)

/-- A configuration and a payload within the limits of the format, with members of at most `limit`
bytes. The file can be addressed with 64 bits, as any file in memory can. -/
structure WithinLimits (limit : Nat) (config : PgzfConfig) (payload : Bytes) : Prop where
  blockSize_pos : 1 ≤ config.blockSize
  blockSize_lt : config.blockSize < 2 ^ 32
  batchSize_pos : 1 ≤ config.compressionBatchSize
  groupLength : ∀ blocks ∈ config.groupsOf payload, blocks.length ≤ 8190
  member : ∀ blocks ∈ config.groupsOf payload,
    ∀ m ∈ groupMembers D config.compressionLevel 0 blocks, m.length ≤ limit
  idx : ∀ blocks ∈ config.groupsOf payload, idxSize D config.compressionLevel blocks.length ≤ limit
  addressable : (fileBytes D config.compressionLevel (config.groupsOf payload)).length < 2 ^ 64

/-- The codec does what is expected of it: for every
block, and for the empty data of index members. -/
def Codec (config : PgzfConfig) (payload : Bytes) : Prop :=
  ∀ data ∈ [] :: config.blocksOf payload, D.Complete config.compressionLevel data

/-- `reader` is what `new` makes of the bytes that a run of the writer leaves in an empty sink. -/
def Opens (config : PgzfConfig) (bufs : List Bytes) (reader : PgzfReader D) : Prop :=
  ∃ sink w s, run D (Sink.atEnd []) config bufs = .ok sink w ∧
    new D ⟨sink.cursor.bytes, 0, []⟩ = .ok reader s

variable {D}

theorem Opens.unique {config : PgzfConfig} {bufs : List Bytes} {reader reader' : PgzfReader D}
    (h : Opens D config bufs reader) (h' : Opens D config bufs reader') : reader = reader' := by
  obtain ⟨sink, w, s, hrun, hnew⟩ := h
  obtain ⟨sink', w', s', hrun', hnew'⟩ := h'
  obtain ⟨rfl, -⟩ := EStateM.Result.ok.inj (hrun.symm.trans hrun')
  exact (EStateM.Result.ok.inj (hnew.symm.trans hnew')).1

variable {limit : Nat} {config : PgzfConfig} {payload : Bytes}

/-! ### Blocks and groups -/

theorem flatten_groupsOf (config : PgzfConfig) (payload : Bytes) :
    (config.groupsOf payload).flatten = config.blocksOf payload :=
  Chunks.flatten_chunks (by omega) _

theorem flatten_blocksOf (hsize : 1 ≤ config.blockSize) (payload : Bytes) :
    (config.blocksOf payload).flatten = payload :=
  Chunks.flatten_chunks hsize payload

theorem mem_blocksOf {blocks : List Bytes} (hblocks : blocks ∈ config.groupsOf payload)
    {data : Bytes} (hdata : data ∈ blocks) : data ∈ config.blocksOf payload := by
  rw [← flatten_groupsOf]
  exact List.mem_flatten_of_mem hblocks hdata

theorem groupsOf_ne_nil (hsize : 1 ≤ config.blockSize) (hne : payload ≠ []) :
    config.groupsOf payload ≠ [] :=
  Chunks.chunks_ne_nil (by omega) (Chunks.chunks_ne_nil hsize hne)

theorem WithinLimits.allocated (h : WithinLimits D limit config payload) :
    config.blockSize < 2 ^ 63 :=
  Nat.lt_trans h.blockSize_lt (by decide)

theorem WithinLimits.fits (h : WithinLimits D limit config payload) :
    ∀ blocks ∈ config.groupsOf payload, GroupFits D config.compressionLevel limit blocks := by
  intro blocks hblocks
  refine ⟨Chunks.ne_nil_of_mem_chunks (by omega) hblocks, h.groupLength blocks hblocks, ?_,
    h.member blocks hblocks, h.idx blocks hblocks⟩
  intro data hdata
  have hmem := mem_blocksOf hblocks hdata
  have hlen := Chunks.length_le_of_mem_chunks h.blockSize_pos hmem
  exact ⟨Chunks.ne_nil_of_mem_chunks h.blockSize_pos hmem, Nat.lt_of_le_of_lt hlen h.blockSize_lt⟩

theorem WithinLimits.mono (h : WithinLimits D limit config payload) {limit' : Nat}
    (hle : limit ≤ limit') :
    WithinLimits D limit' config payload :=
  { h with
    member := fun blocks hblocks m hm => Nat.le_trans (h.member blocks hblocks m hm) hle
    idx := fun blocks hblocks => Nat.le_trans (h.idx blocks hblocks) hle }

theorem Codec.compresses (h : Codec D config payload) : Compresses D config payload :=
  fun data hdata => ⟨_, (h data hdata).compressBlock_eq⟩

theorem Codec.inflates (h : Codec D config payload) :
    ∀ blocks ∈ config.groupsOf payload, GroupInflates D config.compressionLevel blocks :=
  fun _ hblocks data hdata =>
    (h data (List.mem_cons_of_mem _ (mem_blocksOf hblocks hdata))).inflates

section Sizes

variable (D) (level : Nat)

theorem length_le_groupBytes (blocks : List Bytes) :
    20 * blocks.length ≤ (groupBytes D level blocks).length := by
  have hmember : ∀ member ∈ groupMembers D level 0 blocks, 20 ≤ member.length := by
    intro member hmember
    cases blocks with
    | nil => exact absurd hmember List.not_mem_nil
    | cons first rest =>
      rcases List.mem_cons.mp hmember with rfl | hmember
      · rw [length_begMember, memberSize, begHeaderSize]
        omega
      · obtain ⟨data, -, rfl⟩ := List.mem_map.mp hmember
        rw [length_datMember, memberSize, datHeaderSize]
        omega
  have hsum := RunningSum.le_length_flatten hmember
  rw [length_groupMembers] at hsum
  rw [groupBytes, length_groupWith]
  omega

theorem length_le_fileBytes (groups : List (List Bytes)) :
    20 * groups.flatten.length ≤ (fileBytes D level groups).length := by
  induction groups with
  | nil => exact Nat.zero_le _
  | cons blocks groups ih =>
    have hfirst := length_le_groupBytes D level blocks
    rw [List.flatten_cons, fileBytes_cons, List.length_append, List.length_append]
    omega

theorem fits_defaultReadahead (groups : List (List Bytes))
    (hsize : (fileBytes D level groups).length < 2 ^ 64) :
    groups.flatten.length + defaultReadahead < 2 ^ 64 := by
  have hle := length_le_fileBytes D level groups
  rw [defaultReadahead]
  omega

end Sizes

/-! ### Opening -/

theorem gzipBase_prefix_groupWith (level : Nat) (gc : UInt64) {blocks : List Bytes}
    (hne : blocks ≠ []) :
    gzipBase <+: groupWith D level gc blocks := by
  obtain ⟨zc, tail, hbeg⟩ := groupWith_eq D level gc hne
  refine ⟨u16Bytes 20 ++ (subField tagZc (u32Bytes zc) ++ subField tagGc (u64Bytes gc)) ++ tail, ?_⟩
  rw [hbeg, begHeader, memberHeader]
  simp only [List.append_assoc]
  rfl

theorem gzipBase_prefix_fileBytes (level : Nat) {groups : List (List Bytes)} (hne : groups ≠ [])
    (hgroups : ∀ blocks ∈ groups, blocks ≠ []) (rest : Bytes) :
    gzipBase <+: fileBytes D level groups ++ rest := by
  obtain ⟨blocks, others, rfl⟩ := List.exists_cons_of_ne_nil hne
  rw [fileBytes_cons, List.append_assoc]
  exact (gzipBase_prefix_groupWith level _ (hgroups blocks List.mem_cons_self)).trans
    (List.prefix_append _ _)

/-- A file of whole groups, and of whatever the scan stops
at behind them, is opened with the index of the groups. -/
theorem new_fileBytes {level : Nat} {groups : List (List Bytes)}
    (hfits : ∀ blocks ∈ groups, GroupFits D level limit blocks) (hlimit : limit < 2 ^ 32)
    {rest : Bytes} (hbase : gzipBase <+: fileBytes D level groups ++ rest) (hstops : Stops rest)
    (hsize : (fileBytes D level groups ++ rest).length < 2 ^ 64) (q : Nat) :
    new D ⟨fileBytes D level groups ++ rest, q, []⟩ =
      .ok (fresh D (fileBytes D level groups ++ rest) (indexOf D level groups))
        ⟨fileBytes D level groups ++ rest, 0, []⟩ :=
  new_eq hbase (fun q => build_fileBytes hfits hlimit hstops hsize q) q

theorem stops_nil : Stops [] := .inl (by rw [List.length_nil, begHeaderSize]; omega)

theorem run_fileBytes (hsize : 1 ≤ config.blockSize) (hallocated : config.blockSize < 2 ^ 63)
    (hbatch : 1 ≤ config.compressionBatchSize) {bufs : List Bytes}
    (hcompress : Compresses D config bufs.flatten) :
    ∃ w, run D (Sink.atEnd []) config bufs = .ok w.inner w ∧
      w.inner.cursor.bytes = fileBytes D config.compressionLevel
        (config.groupsOf bufs.flatten) := by
  obtain ⟨w, hrun, hrep⟩ := run_represents hsize hallocated hbatch hcompress []
  exact ⟨w, hrun, by rw [hrep.cursor]; rfl⟩

section Written

variable {bufs : List Bytes}

theorem new_written (h : WithinLimits D limit config payload) (hlimit : limit < 2 ^ 32)
    (hne : payload ≠ []) (q : Nat) :
    new D ⟨fileBytes D config.compressionLevel (config.groupsOf payload), q, []⟩ =
      .ok (fresh D (fileBytes D config.compressionLevel (config.groupsOf payload))
        (indexOf D config.compressionLevel (config.groupsOf payload)))
        ⟨fileBytes D config.compressionLevel (config.groupsOf payload), 0, []⟩ := by
  have hbase :=
    gzipBase_prefix_fileBytes (D := D) config.compressionLevel (groupsOf_ne_nil h.blockSize_pos hne)
      (fun blocks hblocks => (h.fits blocks hblocks).ne_nil) []
  have hsize := h.addressable
  rw [← List.append_nil (fileBytes D config.compressionLevel (config.groupsOf payload))] at hsize
  have hnew := new_fileBytes h.fits hlimit hbase stops_nil hsize q
  rwa [List.append_nil] at hnew

theorem opens_written (h : WithinLimits D limit config bufs.flatten) (hlimit : limit < 2 ^ 32)
    (hcompress : Compresses D config bufs.flatten) (hne : bufs.flatten ≠ []) :
    Opens D config bufs
      (fresh D (fileBytes D config.compressionLevel (config.groupsOf bufs.flatten))
      (indexOf D config.compressionLevel (config.groupsOf bufs.flatten))) := by
  obtain ⟨w, hrun, hbytes⟩ := run_fileBytes h.blockSize_pos h.allocated h.batchSize_pos hcompress
  exact ⟨w.inner, w, _, hrun, by rw [hbytes]; exact new_written h hlimit hne 0⟩

theorem describes_written (h : WithinLimits D (2 ^ 30) config bufs.flatten)
    (hcodec : Codec D config bufs.flatten) :
    Describes D (fileBytes D config.compressionLevel (config.groupsOf bufs.flatten))
      (indexOf D config.compressionLevel (config.groupsOf bufs.flatten))
        (config.blocksOf bufs.flatten) := by
  have hd := describes_indexOf h.fits hcodec.inflates []
  rwa [List.append_nil, flatten_groupsOf] at hd

end Written

/-! ### A sample -/

def Stored.sampleConfig : PgzfConfig := ⟨2, 2, 0, none, none, 1000⟩

def Stored.sampleBufs : List Bytes := [[97, 98, 99], [100, 101, 102, 103]]

theorem Stored.sample_withinLimits : WithinLimits deps (2 ^ 30) sampleConfig sampleBufs.flatten :=
  ⟨by decide, by decide, by decide, by decide, by decide +kernel, by decide +kernel,
    by decide +kernel⟩

theorem Stored.codec_of_length_lt
    (h : ∀ data ∈ [] :: config.blocksOf payload, data.length < 2 ^ 16) :
    Codec deps config payload :=
  fun data hdata => complete _ (h data hdata)

theorem Stored.sample_codec : Codec deps sampleConfig sampleBufs.flatten :=
  codec_of_length_lt (by decide)

end Pgzf
