import Pgzf.Cuts

/-!
# What a gzip decoder finds in the output

The same bytes once more, as gzip members: the sub-fields are an extra field like any other, and
what the member holds ends where its deflate stream ends. A decoder that knows nothing of `ZC`, `GC`
and `IX` reads the blocks one after another, and nothing from the index members.
-/

namespace Pgzf

open PgzfWriter

variable (D : Deps) (level : Nat)

/-! ### PGZF members as gzip members -/

def extraOf (fields : List (Bytes × Bytes)) : Bytes :=
  fields.flatMap fun field => subField field.1 field.2

def gzipMember (fields : List (Bytes × Bytes)) (stream data : Bytes) : Gzip.Member :=
  ⟨⟨false, false, some (extraOf fields), none, none, [0, 0, 0, 0], pgzfXflMarker, gzipOsUnix⟩,
    stream, data⟩

def gzipBeg (gc : UInt64) (data : Bytes) : Gzip.Member :=
  gzipMember [(tagZc, u32Bytes (memberZc D level begHeaderSize data)),
    (tagGc, u64Bytes gc)] (deflated D level data) data

def gzipDat (data : Bytes) : Gzip.Member :=
  gzipMember [(tagZc, u32Bytes (memberZc D level datHeaderSize data))] (deflated D level data) data

def gzipIdx (entries : List IndexEntry) : Gzip.Member :=
  gzipMember [(tagZc, u32Bytes (idxZc D level entries.length)), (tagIx, entries.flatMap entryBytes)]
    (deflated D level []) []

/-- The gzip members of a group with the given value in its header. -/
def gzipGroup (gc : UInt64) : List Bytes → List Gzip.Member
  | [] => [gzipIdx D level []]
  | first :: rest => gzipBeg D level gc first :: rest.map (gzipDat D level) ++
      [gzipIdx D level (groupEntries D level (first :: rest))]

variable {D level}

/-- The sub-fields have tags of two bytes, and their
lengths fit; so does the length of all of them. -/
structure FieldsFit (fields : List (Bytes × Bytes)) : Prop where
  field : ∀ field ∈ fields, field.1.length = 2 ∧ field.2.length < 2 ^ 16
  extra : (extraOf fields).length < 2 ^ 16

theorem u16Bytes_ofNat (n : Nat) : u16Bytes (UInt16.ofNat n) = LittleEndian.encode 2 n := by
  rw [u16Bytes, UInt16.toNat_ofNat']
  exact LittleEndian.encode_mod 2 n

theorem u32Bytes_ofNat (n : Nat) : u32Bytes (UInt32.ofNat n) = LittleEndian.encode 4 n := by
  rw [u32Bytes, UInt32.toNat_ofNat']
  exact LittleEndian.encode_mod 4 n

theorem trailer_eq (data : Bytes) : trailer D data = Gzip.Member.trailer D.hash data := by
  rw [trailer, u32Bytes_ofNat, u32Bytes, Gzip.Member.trailer]

theorem trailer_nil (hempty : D.hash [] = 0) :
    Gzip.Member.trailer D.hash [] = List.replicate pgzfTailSize 0 := by
  rw [Gzip.Member.trailer, hempty]
  rfl

theorem bytes_gzipMember (fields : List (Bytes × Bytes)) (stream data : Bytes) :
    (gzipMember fields stream data).bytes D.hash =
      memberHeader (extraOf fields) ++ stream ++ Gzip.Member.trailer D.hash data := by
  have hflags : (gzipMember fields stream data).header.flags = gzipFlgFextra := by
    simp [gzipMember, Gzip.Header.flags, gzipFlgFextra]
  have hfront : ∀ tail : Bytes, [0x1f, 0x8b, 8, (gzipMember fields stream data).header.flags] ++
      [0, 0, 0, 0] ++ [pgzfXflMarker, gzipOsUnix] ++ tail = gzipBase ++ tail := by
    intro tail
    rw [hflags]
    rfl
  simp only [Gzip.Member.bytes, Gzip.Header.bytes, Gzip.Header.front, Gzip.Header.fixed,
    memberHeader, u16Bytes_ofNat, List.append_assoc] at hfront ⊢
  exact hfront _

theorem bytes_gzipBeg (gc : UInt64) (data : Bytes) :
    (gzipBeg D level gc data).bytes D.hash = begMember D level gc data := by
  rw [gzipBeg, bytes_gzipMember, begMember, begHeader, trailer_eq]
  simp only [extraOf, List.flatMap_cons, List.flatMap_nil, List.append_nil]

theorem bytes_gzipDat (data : Bytes) :
    (gzipDat D level data).bytes D.hash = datMember D level data := by
  rw [gzipDat, bytes_gzipMember, datMember, datHeader, trailer_eq]
  simp only [extraOf, List.flatMap_cons, List.flatMap_nil, List.append_nil]

theorem bytes_gzipIdx (hempty : D.hash [] = 0) (entries : List IndexEntry) :
    (gzipIdx D level entries).bytes D.hash = idxMember D level entries := by
  rw [gzipIdx, bytes_gzipMember, idxMember, idxHeader, trailer_nil hempty]
  simp only [extraOf, List.flatMap_cons, List.flatMap_nil, List.append_nil]

theorem bytes_gzipGroup (hempty : D.hash [] = 0) (gc : UInt64) (blocks : List Bytes) :
    (gzipGroup D level gc blocks).flatMap (Gzip.Member.bytes D.hash) =
      groupWith D level gc blocks := by
  cases blocks with
  | nil =>
    simp only [gzipGroup, List.flatMap_cons, List.flatMap_nil, List.append_nil,
      bytes_gzipIdx hempty, groupWith,
      groupMembers, List.flatten_nil, List.nil_append, groupEntries]
  | cons first rest =>
    have hrest : (rest.map (gzipDat D level)).flatMap (Gzip.Member.bytes D.hash) =
        (rest.map (datMember D level)).flatten := by
      rw [List.flatMap_map, List.flatMap_def]
      refine congrArg List.flatten (List.map_congr_left fun data _ => ?_)
      exact bytes_gzipDat data
    rw [gzipGroup, List.cons_append, List.flatMap_cons, List.flatMap_append, hrest, groupWith,
      groupMembers, List.flatten_cons]
    simp only [List.flatMap_cons, List.flatMap_nil, List.append_nil, bytes_gzipBeg,
      bytes_gzipIdx hempty, List.append_assoc]

theorem data_gzipGroup (gc : UInt64) (blocks : List Bytes) :
    (gzipGroup D level gc blocks).flatMap Gzip.Member.data = blocks.flatten := by
  cases blocks with
  | nil => rfl
  | cons first rest =>
    have hrest : (rest.map (gzipDat D level)).flatMap Gzip.Member.data = rest.flatten := by
      rw [List.flatMap_map, List.flatMap_def]
      exact congrArg List.flatten (List.map_id rest)
    rw [gzipGroup, List.cons_append, List.flatMap_cons, List.flatMap_append, hrest,
      List.flatten_cons]
    exact congrArg (first ++ ·) (List.append_nil _)

/-! ### What a decoder needs to know of them -/

variable {inflate : Bytes → Option (Bytes × Nat)}

structure WellFormed (inflate : Bytes → Option (Bytes × Nat)) (m : Gzip.Member) : Prop where
  valid : m.Valid inflate
  subFields : ∃ extra fields, m.header.extra = some extra ∧ Gzip.subFields extra = some fields

theorem wellFormed_gzipMember {fields : List (Bytes × Bytes)} (hfit : FieldsFit fields)
    {stream data : Bytes} (hstream : Gzip.Delimits inflate stream data) :
    WellFormed inflate (gzipMember fields stream data) := by
  refine ⟨⟨⟨rfl, ?_, by simp [gzipMember], by simp [gzipMember]⟩, hstream⟩, extraOf fields,
    fields, rfl, ?_⟩
  · rintro extra ⟨⟩
    exact hfit.extra
  · have hextra : extraOf fields = fields.flatMap fun field =>
        field.1 ++ LittleEndian.encode 2 field.2.length ++ field.2 := by
      simp only [extraOf, subField, u16Bytes_ofNat]
    rw [hextra]
    exact Gzip.subFields_flatMap hfit.field

theorem fieldsFit_beg (zc : UInt32) (gc : UInt64) :
    FieldsFit [(tagZc, u32Bytes zc), (tagGc, u64Bytes gc)] :=
  ⟨by simp, by simp [extraOf]⟩

theorem fieldsFit_dat (zc : UInt32) : FieldsFit [(tagZc, u32Bytes zc)] :=
  ⟨by simp, by simp [extraOf]⟩

theorem fieldsFit_idx (zc : UInt32) {entries : List IndexEntry} (hcount : entries.length ≤ 8190) :
    FieldsFit [(tagZc, u32Bytes zc), (tagIx, entries.flatMap entryBytes)] := by
  constructor
  · intro field hfield
    simp only [List.mem_cons, List.not_mem_nil, or_false] at hfield
    obtain rfl | rfl := hfield
    · simp
    · rw [length_flatMap_entryBytes]
      exact ⟨rfl, by omega⟩
  · simp only [extraOf, List.flatMap_cons, List.flatMap_nil, List.append_nil, List.length_append,
      length_subField, length_tagZc, length_tagIx, length_u32Bytes, length_flatMap_entryBytes]
    omega

theorem wellFormed_gzipGroup {gc : UInt64} {blocks : List Bytes} (hcount : blocks.length ≤ 8190)
    (hstreams : ∀ data ∈ [] :: blocks, Gzip.Delimits inflate (deflated D level data) data) :
    ∀ m ∈ gzipGroup D level gc blocks, WellFormed inflate m := by
  have hidx : ∀ entries : List IndexEntry, entries.length ≤ 8190 →
      WellFormed inflate (gzipIdx D level entries) :=
    fun entries hentries => wellFormed_gzipMember (fieldsFit_idx _ hentries)
      (hstreams [] List.mem_cons_self)
  cases blocks with
  | nil =>
    intro m hm
    rw [List.mem_singleton.mp hm]
    exact hidx [] (Nat.zero_le _)
  | cons first rest =>
    intro m hm
    rw [gzipGroup, List.cons_append, List.mem_cons, List.mem_append, List.mem_singleton] at hm
    rcases hm with rfl | hm | rfl
    · exact wellFormed_gzipMember (fieldsFit_beg _ _) (hstreams first (by simp))
    · obtain ⟨data, hdata, rfl⟩ := List.mem_map.mp hm
      exact wellFormed_gzipMember (fieldsFit_dat _) (hstreams data (by simp [hdata]))
    · exact hidx _ (by rwa [length_groupEntries])

/-! ### Files -/

def gzipFile (D : Deps) (level : Nat) (groups : List (List Bytes)) : List Gzip.Member :=
  groups.flatMap fun blocks => gzipGroup D level (groupGc D level blocks) blocks

theorem bytes_gzipFile (hempty : D.hash [] = 0) (groups : List (List Bytes)) :
    (gzipFile D level groups).flatMap (Gzip.Member.bytes D.hash) = fileBytes D level groups := by
  rw [gzipFile, List.flatMap_assoc, fileBytes]
  simp only [bytes_gzipGroup hempty]
  rfl

theorem data_gzipFile (groups : List (List Bytes)) :
    (gzipFile D level groups).flatMap Gzip.Member.data = groups.flatten.flatten := by
  rw [gzipFile, List.flatMap_assoc]
  simp only [data_gzipGroup]
  rw [List.flatMap_def, List.flatten_flatten]

variable {config : PgzfConfig} {calls : List WriteCall}

/-- A gzip decoder that looks only at the flags, `XLEN`, the deflate streams and the trailers
accepts the output of a writer to the last byte, finds sub-fields that fill every extra field, and
delivers the payload. -/
theorem output_is_gzip (hsize : 1 ≤ config.blockSize) (hallocated : config.blockSize < 2 ^ 63)
    (hbatch : 1 ≤ config.compressionBatchSize)
    (hcount : ∀ blocks ∈ config.groupsOf (calls.flatMap WriteCall.bytes), blocks.length ≤ 8190)
    (hcodec : ∀ data ∈ [] :: config.blocksOf (calls.flatMap WriteCall.bytes), ∃ out,
      compressBlock D config.compressionLevel data = .ok out ∧ Gzip.Delimits inflate out data)
    (hempty : D.hash [] = 0) :
    ∃ w members, runCalls D (Sink.atEnd []) config calls = .ok w.inner w ∧
      Gzip.gunzip inflate D.hash w.inner.cursor.bytes = some members ∧
      (∀ m ∈ members, ∃ extra fields, m.extra = some extra ∧ Gzip.subFields extra = some fields) ∧
      members.flatMap Gzip.Decoded.data = calls.flatMap WriteCall.bytes := by
  have hcompress : Compresses D config (calls.flatMap WriteCall.bytes) := fun data hdata =>
    (hcodec data hdata).imp fun _ h => h.1
  have hstream : ∀ data ∈ [] :: config.blocksOf (calls.flatMap WriteCall.bytes),
      Gzip.Delimits inflate (deflated D config.compressionLevel data) data := by
    intro data hdata
    obtain ⟨out, hout, hdelimits⟩ := hcodec data hdata
    rwa [deflated, hout]
  have hwell : ∀ m ∈ gzipFile D config.compressionLevel
      (config.groupsOf (calls.flatMap WriteCall.bytes)), WellFormed inflate m := by
    intro m hm
    obtain ⟨blocks, hblocks, hmem⟩ := List.mem_flatMap.mp hm
    refine wellFormed_gzipGroup (hcount blocks hblocks) ?_ m hmem
    intro data hdata
    exact hstream data ((List.mem_cons.mp hdata).elim (fun h => h ▸ List.mem_cons_self) fun h =>
      List.mem_cons_of_mem _ (mem_blocksOf hblocks h))
  obtain ⟨w, hrun, hrep⟩ := runCalls_represents hsize hallocated hbatch hcompress []
  have hbytes : w.inner.cursor.bytes =
      (gzipFile D config.compressionLevel (config.groupsOf (calls.flatMap WriteCall.bytes))).flatMap
        (Gzip.Member.bytes D.hash) := by
    rw [hrep.cursor, List.nil_append, bytes_gzipFile hempty]
  refine ⟨w, _, hrun, by rw [hbytes]; exact Gzip.gunzip_flatMap fun m hm => (hwell m hm).valid, ?_,
    ?_⟩
  · intro decoded hdecoded
    obtain ⟨m, hm, rfl⟩ := List.mem_map.mp hdecoded
    exact (hwell m hm).subFields
  · have hdata : (gzipFile D config.compressionLevel
        (config.groupsOf (calls.flatMap WriteCall.bytes))).flatMap
        Gzip.Member.data = _ := data_gzipFile _
    rw [flatten_groupsOf, flatten_blocksOf hsize] at hdata
    rw [List.flatMap_map]
    exact hdata

theorem output_is_gzip_sample :
    ∃ w members, runCalls Stored.deps (Sink.atEnd []) Stored.sampleConfig Stored.sampleCalls =
      .ok w.inner w ∧
      Gzip.gunzip Stored.inflate Stored.deps.hash w.inner.cursor.bytes = some members ∧
      (∀ m ∈ members, ∃ extra fields, m.extra = some extra ∧ Gzip.subFields extra = some fields) ∧
      members.flatMap Gzip.Decoded.data = Stored.sampleCalls.flatMap WriteCall.bytes := by
  have hcodec : ∀ data ∈ [] :: Stored.sampleConfig.blocksOf
      (Stored.sampleCalls.flatMap WriteCall.bytes), ∃ out,
      compressBlock Stored.deps 0 data = .ok out ∧ Gzip.Delimits Stored.inflate out data := by
    intro data hdata
    have hlen : data.length < 2 ^ 16 := by
      have hall : ∀ data ∈ [] :: Stored.sampleConfig.blocksOf
          (Stored.sampleCalls.flatMap WriteCall.bytes), data.length < 2 ^ 16 := by decide
      exact hall data hdata
    exact ⟨_, Stored.compressBlock_eq 0 hlen, Stored.delimits_stream hlen⟩
  exact output_is_gzip (by decide) (by decide) (by decide) (by decide) hcodec (by decide)

end Pgzf
