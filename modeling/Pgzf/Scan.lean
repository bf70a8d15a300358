import Mathlib.Data.List.Infix
import Pgzf.Groups

/-!
# Scanning a file of whole groups

`build` enters every finished group and stops in front of whatever follows: too few bytes for a
header, or a header whose `GC` is still zero. The result is the true layout: the blocks, their
sizes, and the offsets at which their members stand. A group whose index member is cut off is an
error.
-/

namespace Pgzf

open PgzfIndex

variable {D : Deps} {level : Nat}

/-! ### One group -/

/-- Enter the entries of an index table. -/
def PgzfIndex.Scan.addEntries (acc : Scan) (entries : List IndexEntry) : Scan :=
  { acc with
    blocks := acc.blocks ++ entries.mapIdx fun i e =>
      ⟨UInt32.ofNat acc.groupCount, UInt32.ofNat i, e.compressedSize, e.uncompressedSize⟩
    compressedOffsets := acc.compressedOffsets ++
      RunningSum.starts acc.cumC (entries.map fun e => e.compressedSize.toNat)
    uncompressedOffsets := acc.uncompressedOffsets ++
      RunningSum.starts acc.cumU (entries.map fun e => e.uncompressedSize.toNat)
    cumC := acc.cumC + (entries.map fun e => e.compressedSize.toNat).sum
    cumU := acc.cumU + (entries.map fun e => e.uncompressedSize.toNat).sum }

theorem Scan.push_addEntries (acc : Scan) (ixData : Bytes) (entries : List IndexEntry)
    (entry : IndexEntry) (hentry : entryAt ixData (entries.length * 8) = entry) :
    Scan.push ixData (acc.addEntries entries) entries.length = acc.addEntries
      (entries ++ [entry]) := by
  simp only [Scan.push, hentry, Scan.addEntries, List.map_append, List.map_cons, List.map_nil,
    RunningSum.starts_append, RunningSum.starts_cons, RunningSum.starts_nil, List.sum_append,
      List.sum_cons,
    List.sum_nil, Nat.add_zero, List.append_assoc, Nat.add_assoc, List.mapIdx_append,
      List.mapIdx_cons,
    List.mapIdx_nil, Nat.zero_add]

theorem foldl_push_table (acc : Scan) (ixData : Bytes) :
    (List.range (ixData.length / 8)).foldl (Scan.push ixData) acc = acc.addEntries
      (parseEntries ixData) := by
  rw [parseEntries]
  generalize ixData.length / 8 = n
  induction n with
  | zero => simp [Scan.addEntries]
  | succ n ih =>
    have hlen : ((List.range n).map fun i => entryAt ixData (i * 8)).length = n := by
      rw [List.length_map, List.length_range]
    have hpush :=
      Scan.push_addEntries acc ixData ((List.range n).map fun i => entryAt ixData (i * 8))
        (entryAt ixData (n * 8)) (by rw [hlen])
    rw [hlen] at hpush
    rw [List.range_succ, List.foldl_append, ih, List.foldl_cons, List.foldl_nil, hpush,
      List.map_append, List.map_singleton]

theorem foldl_push (acc : Scan) (entries : List IndexEntry) :
    (List.range entries.length).foldl (Scan.push (entries.flatMap entryBytes)) acc =
      acc.addEntries entries := by
  have htable := foldl_push_table acc (entries.flatMap entryBytes)
  rwa [count_flatMap_entryBytes, parseEntries_flatMap] at htable

theorem idxHeader_eq (zc : UInt32) (entries : List IndexEntry) :
    ∃ fixed, idxHeader zc entries = fixed ++ entries.flatMap entryBytes ∧
      fixed.length = idxHeaderBaseSize ∧
      validateGzipHeader fixed = .ok (gzipFlgFextra, pgzfXflMarker) ∧
      slice fixed 10 12 = u16Bytes (UInt16.ofNat (12 + 8 * entries.length)) ∧
      slice fixed zcValueOffset (zcValueOffset + 4) = u32Bytes zc := by
  refine ⟨gzipBase ++ u16Bytes (UInt16.ofNat (12 + 8 * entries.length)) ++ subField tagZc
    (u32Bytes zc) ++ (tagIx ++ u16Bytes (UInt16.ofNat (8 * entries.length))), ?_, ?_, ?_, ?_, ?_⟩
  · have hxlen :
        (subField tagZc (u32Bytes zc) ++ subField tagIx (entries.flatMap entryBytes)).length =
        12 + 8 * entries.length := by
      simp only [List.length_append, length_subField, length_u32Bytes, length_flatMap_entryBytes,
        length_tagZc, length_tagIx]
      omega
    rw [idxHeader, memberHeader, hxlen]
    simp only [subField, length_flatMap_entryBytes, List.append_assoc]
  · simp only [List.length_append, length_u16Bytes, length_subField, length_u32Bytes, length_tagZc,
      length_tagIx]
    rfl
  · rw [List.append_assoc, List.append_assoc]
    exact validateGzipHeader_base _
  · rw [List.append_assoc (gzipBase ++ _)]
    exact slice_middle gzipBase _ _ rfl (by rw [length_u16Bytes]; rfl)
  · have hsplit : gzipBase ++ u16Bytes (UInt16.ofNat (12 + 8 * entries.length)) ++ subField tagZc
        (u32Bytes zc) =
        gzipBase ++ u16Bytes (UInt16.ofNat (12 + 8 * entries.length)) ++ (tagZc ++ u16Bytes 4) ++
            u32Bytes zc := by
      simp only [subField, List.append_assoc, length_u32Bytes]
      rfl
    rw [hsplit]
    exact slice_middle _ _ _ (by simp [zcValueOffset, gzipBase]) (by simp [zcValueOffset, gzipBase])

/-- What `build` reads of the index member of a group:
the data of the table, the number of entries and `ZC`. -/
def PgzfIndex.readIdx (idxStart : Nat) : Prog Source (Bytes × Nat × UInt32) := do
  Source.seekStart idxStart
  let idxFixed ← Source.readExact idxHeaderBaseSize
  let (_, idxXfl) ← Prog.ofExcept (validateGzipHeader idxFixed)
  if idxXfl ≠ pgzfXflMarker then
    throw (.error (.invalidFormat "IDX block not PGZF"))
  else
    let idxXlen := (readU16Le (slice idxFixed 10 12)).toNat
    if idxXlen < 8 + 4 then
      throw (.error (.invalidFormat "invalid IDX XLEN"))
    else
      let ixDataSize := idxXlen - (8 + 4)
      let ixData ← Source.readExact ixDataSize
      return (ixData, ixDataSize / 8, readU32Le (slice idxFixed zcValueOffset (zcValueOffset + 4)))

theorem scanIdx_eq (idxStart : Nat) (acc : Scan) : scanIdx idxStart acc = (do
    let (ixData, numEntries, idxZc) ← readIdx idxStart
    let acc := (List.range numEntries).foldl (Scan.push ixData) acc
    Source.seekStart (← addU64 idxStart idxZc.toNat)
    return { acc with cumC := acc.cumC + idxZc.toNat, groupCount := acc.groupCount + 1 }) := by
  rw [scanIdx, readIdx, bind_assoc]
  congr 1
  funext _
  rw [bind_assoc]
  congr 1
  funext idxFixed
  rw [bind_assoc]
  congr 1
  funext header
  by_cases hmarker : header.2 ≠ pgzfXflMarker
  · simp only [hmarker, if_true, ne_eq, not_false_iff]
    rfl
  simp only [hmarker, if_false]
  by_cases hxlen : (readU16Le (slice idxFixed 10 12)).toNat < 8 + 4
  · simp only [hxlen, if_true]
    rfl
  · simp only [hxlen, if_false, bind_assoc, pure_bind]

theorem readIdx_idxHeader {file rest : Bytes} {p q : Nat} {zc : UInt32} {entries : List IndexEntry}
    (hfile : file.drop p = idxHeader zc entries ++ rest) (hcount : entries.length ≤ 8190) :
    readIdx p ⟨file, q, []⟩ = .ok (entries.flatMap entryBytes, entries.length, zc)
      ⟨file, p + idxHeaderBaseSize + 8 * entries.length, []⟩ := by
  obtain ⟨fixed, hheader, hlen, hvalid, hxlen, hzc⟩ := idxHeader_eq zc entries
  rw [hheader, List.append_assoc] at hfile
  have hfixed : fixed <+: file.drop p := by
    rw [hfile]
    exact List.prefix_append _ _
  have htable : entries.flatMap entryBytes <+: file.drop (p + fixed.length) := by
    rw [← List.drop_drop, hfile, List.drop_left]
    exact List.prefix_append _ _
  have hxlenNat : (UInt16.ofNat (12 + 8 * entries.length)).toNat = 12 + 8 * entries.length :=
    UInt16.toNat_ofNat_of_lt' (by rw [UInt16.size]; omega)
  have hsize : 12 + 8 * entries.length - (8 + 4) = (entries.flatMap entryBytes).length := by
    rw [length_flatMap_entryBytes]
    omega
  rw [readIdx, Program.bind_ok (Source.seekStart_apply _ _ _), ← hlen,
    Program.bind_ok (Source.readExact_prefix hfixed),
    hvalid, Program.bind_ok (Prog.ofExcept_ok _ _)]
  simp only [ne_eq, not_true, if_false, hxlen, readU16Le_self, hxlenNat, hzc, readU32Le_self]
  rw [if_neg (by omega), hsize, Program.bind_ok (Source.readExact_prefix htable),
    count_flatMap_entryBytes, length_flatMap_entryBytes]
  rfl

theorem scanIdx_ok {file rest : Bytes} {q idxStart : Nat} {zc : UInt32} {entries : List IndexEntry}
    (hfile : file.drop idxStart = idxHeader zc entries ++ rest) (hcount : entries.length ≤ 8190)
    (hend : idxStart + zc.toNat < 2 ^ 64) (acc : Scan) :
    scanIdx idxStart acc ⟨file, q, []⟩ = .ok { acc.addEntries entries with
      cumC := (acc.addEntries entries).cumC + zc.toNat
      groupCount := acc.groupCount + 1 } ⟨file, idxStart + zc.toNat, []⟩ := by
  rw [scanIdx_eq, Program.bind_ok (readIdx_idxHeader hfile hcount)]
  simp only [foldl_push]
  rw [Program.bind_ok (addU64_of_lt hend _), Program.bind_ok (Source.seekStart_apply _ _ _),
    Program.pure_apply]
  rfl

theorem scanIdx_eof {file : Bytes} {q idxStart : Nat} {zc : UInt32} {entries : List IndexEntry}
    (hfile : file.drop idxStart <+: idxHeader zc entries)
    (hcut : (file.drop idxStart).length < idxHeaderBaseSize + 8 * entries.length)
    (hcount : entries.length ≤ 8190) (acc : Scan) :
    scanIdx idxStart acc ⟨file, q, []⟩ =
      .error (.error (.io .unexpectedEof)) ⟨file, file.length, []⟩ := by
  obtain ⟨fixed, hheader, hlen, hvalid, hxlen, -⟩ := idxHeader_eq zc entries
  rw [List.length_drop] at hcut
  rw [scanIdx, Program.bind_ok (Source.seekStart_apply _ _ _)]
  by_cases hfixed : fixed.length ≤ file.length - idxStart
  · have hprefix : fixed <+: file.drop idxStart := by
      rw [hheader] at hfile
      exact List.prefix_of_prefix_length_le (List.prefix_append _ _) hfile
        (by rwa [List.length_drop])
    have hxlenNat : (UInt16.ofNat (12 + 8 * entries.length)).toNat = 12 + 8 * entries.length :=
      UInt16.toNat_ofNat_of_lt' (by rw [UInt16.size]; omega)
    rw [← hlen, Program.bind_ok (Source.readExact_prefix hprefix), hvalid,
      Program.bind_ok (Prog.ofExcept_ok _ _)]
    simp only [ne_eq, not_true, if_false, hxlen, readU16Le_self, hxlenNat]
    rw [if_neg (by omega), Program.bind_error (Source.readExact_eof (by omega))]
  · rw [← hlen, Program.bind_error (Source.readExact_eof (by omega))]

/-! ### The header of a group -/

theorem begHeader_eq (zc : UInt32) (gc : UInt64) :
    validateGzipHeader (begHeader zc gc) = .ok (gzipFlgFextra, pgzfXflMarker) ∧
      slice (begHeader zc gc) gcValueOffset (gcValueOffset + 8) = u64Bytes gc := by
  constructor
  · rw [begHeader, memberHeader, List.append_assoc]
    exact validateGzipHeader_base _
  · have hsplit : begHeader zc gc =
        gzipBase ++ u16Bytes 20 ++ subField tagZc (u32Bytes zc) ++ (tagGc ++ u16Bytes 8) ++
            u64Bytes gc ++ [] := by
      simp only [begHeader, memberHeader, List.length_append, length_subField, length_u32Bytes,
        length_u64Bytes, length_tagZc, length_tagGc, List.append_nil, List.append_assoc]
      simp only [subField, length_u64Bytes, List.append_assoc]
      rfl
    rw [hsplit]
    exact slice_middle _ _ _ (by simp [gcValueOffset, gzipBase]) (by simp [gcValueOffset, gzipBase])

theorem scanGroup_stop (groupStart : Nat) (zc : UInt32) (acc : Scan) (s : Source) :
    scanGroup groupStart (begHeader zc 0) acc s = .ok none s := by
  obtain ⟨hvalid, hgc⟩ := begHeader_eq zc 0
  rw [scanGroup, hvalid, Program.bind_ok (Prog.ofExcept_ok _ _)]
  simp only [isPgzfMember_marker, Bool.not_true, Bool.false_eq_true, if_false, hgc,
    readU64Le_self, if_true, Program.pure_apply]

theorem scanGroup_of_ne_zero {groupStart : Nat} {zc : UInt32} {gc : UInt64} (hgc : gc ≠ 0)
    (hsum : groupStart + gc.toNat < 2 ^ 64) (acc : Scan) (s : Source) :
    scanGroup groupStart (begHeader zc gc) acc s =
      (do return some (← scanIdx (groupStart + gc.toNat) acc) : Prog Source (Option Scan)) s := by
  obtain ⟨hvalid, hfield⟩ := begHeader_eq zc gc
  rw [scanGroup, hvalid, Program.bind_ok (Prog.ofExcept_ok _ _)]
  simp only [isPgzfMember_marker, Bool.not_true, Bool.false_eq_true, if_false, hfield,
    readU64Le_self, hgc]
  rw [Program.bind_ok (addU64_of_lt hsum _)]

/-! ### The loop -/

/-- Enter the index table of a group, and pass over its index member. -/
def PgzfIndex.Scan.addTable (acc : Scan) (entries : List IndexEntry) (zc : UInt32) : Scan :=
  { acc.addEntries entries with
    cumC := (acc.addEntries entries).cumC + zc.toNat
    groupCount := acc.groupCount + 1 }

def PgzfIndex.Scan.addGroup (D : Deps) (level : Nat) (acc : Scan) (blocks : List Bytes) : Scan :=
  let acc' := acc.addEntries (groupEntries D level blocks)
  { acc' with
    cumC := acc'.cumC + (idxZc D level blocks.length).toNat
    groupCount := acc.groupCount + 1 }

/-- The scan ends here: too few bytes for a header, or a group without its length. -/
def Stops (rest : Bytes) : Prop :=
  rest.length < begHeaderSize ∨ ∃ zc tail, rest = begHeader zc 0 ++ tail

variable (D level) in
theorem groupWith_eq (gc : UInt64) {blocks : List Bytes} (hne : blocks ≠ []) :
    ∃ zc tail, groupWith D level gc blocks = begHeader zc gc ++ tail := by
  obtain ⟨first, rest, rfl⟩ := List.exists_cons_of_ne_nil hne
  exact ⟨memberZc D level begHeaderSize first, _, by
    simp only [groupWith, groupMembers, begMember, List.flatten_cons, List.append_assoc]; rfl⟩

variable (D level) in
def groupFront (blocks : List Bytes) : Bytes :=
  (groupMembers D level (groupGc D level blocks) blocks).flatten ++
    idxHeader (idxZc D level blocks.length) (groupEntries D level blocks)

theorem groupBytes_eq_front (blocks : List Bytes) : groupBytes D level blocks =
    groupFront D level blocks ++ (deflated D level [] ++ List.replicate pgzfTailSize 0) := by
  simp only [groupBytes, groupWith, groupFront, idxMember, length_groupEntries, List.append_assoc]

variable (D level) in
theorem le_length_groupFront {blocks : List Bytes} (hne : blocks ≠ []) :
    begHeaderSize ≤ (groupFront D level blocks).length := by
  obtain ⟨first, others, rfl⟩ := List.exists_cons_of_ne_nil hne
  simp only [groupFront, groupMembers, List.flatten_cons, List.length_append, length_begMember,
    memberSize]
  omega

/-- One turn of the loop: a header with a length, and an index header where that length leads. -/
theorem buildLoop_turn {file rest : Bytes} {p : Nat} {zc idxZc : UInt32} {gc : UInt64}
    {entries : List IndexEntry} (hbeg : begHeader zc gc <+: file.drop p) (hgc : gc ≠ 0)
    (hidx : file.drop (p + gc.toNat) = idxHeader idxZc entries ++ rest)
    (hcount : entries.length ≤ 8190) (hend : p + gc.toNat + idxZc.toNat < 2 ^ 64) (fuel : Nat)
    (acc : Scan) :
    buildLoop (fuel + 1) acc ⟨file, p, []⟩ =
      buildLoop fuel (acc.addTable entries idxZc) ⟨file, p + gc.toNat + idxZc.toNat, []⟩ := by
  have hscan := scanIdx_ok (q := p + begHeaderSize) hidx hcount hend acc
  rw [buildLoop, Program.bind_ok (Prog.attempt_ok (Source.streamPosition_apply _ _))]
  simp only
  rw [← length_begHeader zc gc, Program.bind_ok (Prog.attempt_ok (Source.readExact_prefix hbeg))]
  simp only
  rw [length_begHeader, Program.bind_apply, scanGroup_of_ne_zero hgc (by omega),
    Program.bind_ok hscan, Program.pure_apply]
  rfl

/-- Scanning a group at the position: what stands behind
its table does not matter, and may be missing. -/
theorem buildLoop_group {limit : Nat} {blocks : List Bytes} (h : GroupFits D level limit blocks)
    (hlimit : limit < 2 ^ 32) {file rest : Bytes} {p : Nat}
    (hfile : file.drop p = groupFront D level blocks ++ rest)
    (hsize : p + (groupBytes D level blocks).length < 2 ^ 64) (fuel : Nat) (acc : Scan) :
    buildLoop (fuel + 1) acc ⟨file, p, []⟩ =
      buildLoop fuel (acc.addGroup D level blocks) ⟨file,
        p + (groupBytes D level blocks).length, []⟩ := by
  obtain ⟨zc, tail, hbeg⟩ := groupWith_eq D level (groupGc D level blocks) h.ne_nil
  have hlen : begHeaderSize ≤ (groupFront D level blocks).length :=
    le_length_groupFront D level h.ne_nil
  have hheader : begHeader zc (groupGc D level blocks) <+: file.drop p := by
    have hfront : groupFront D level blocks <+: groupBytes D level blocks := by
      rw [groupBytes_eq_front]
      exact List.prefix_append _ _
    have hwhole : begHeader zc (groupGc D level blocks) <+: groupBytes D level blocks := by
      rw [groupBytes, hbeg]
      exact List.prefix_append _ _
    rw [hfile]
    exact (List.prefix_of_prefix_length_le hwhole hfront (by rwa [length_begHeader])).trans
      (List.prefix_append _ _)
  have hgc := groupGc_toNat h hlimit
  have hidxZc : (idxZc D level blocks.length).toNat = idxSize D level blocks.length :=
    idxZc_toNat (Nat.lt_of_le_of_lt h.idx hlimit)
  have hlength : (groupBytes D level blocks).length =
      (groupGc D level blocks).toNat + (idxZc D level blocks.length).toNat := by
    rw [hgc, hidxZc, groupBytes, length_groupWith]
  have hmembers : (groupMembers D level (groupGc D level blocks) blocks).flatten.length =
      (groupGc D level blocks).toNat := by
    rw [hgc, ← RunningSum.sum_map_length, ← RunningSum.sum_map_length,
      map_length_groupMembers D level _ 0]
  have hidx : file.drop (p + (groupGc D level blocks).toNat) =
      idxHeader (idxZc D level blocks.length) (groupEntries D level blocks) ++ rest := by
    rw [← List.drop_drop, hfile, groupFront, ← hmembers, List.append_assoc, List.drop_left]
  rw [hlength, ← Nat.add_assoc]
  exact buildLoop_turn hheader (groupGc_ne_zero h hlimit) hidx
    (by rw [length_groupEntries]; exact h.length_le) (by omega) fuel acc

theorem buildLoop_stop {file : Bytes} {p : Nat} (h : Stops (file.drop p)) (fuel : Nat)
    (acc : Scan) :
    ∃ q, buildLoop (fuel + 1) acc ⟨file, p, []⟩ = .ok acc ⟨file, q, []⟩ := by
  rw [buildLoop, Program.bind_ok (Prog.attempt_ok (Source.streamPosition_apply _ _))]
  simp only
  rcases h with hshort | ⟨zc, tail, hbeg⟩
  · rw [List.length_drop] at hshort
    rw [Program.bind_ok (Prog.attempt_error (Source.readExact_eof hshort))]
    exact ⟨_, rfl⟩
  · have hheader : begHeader zc 0 <+: file.drop p := by
      rw [hbeg]
      exact List.prefix_append _ _
    rw [← length_begHeader zc 0, Program.bind_ok
      (Prog.attempt_ok (Source.readExact_prefix hheader))]
    simp only
    rw [Program.bind_ok (scanGroup_stop _ _ _ _)]
    exact ⟨_, rfl⟩

/-- A group that ends before its index table does. -/
theorem buildLoop_cut {limit : Nat} {blocks : List Bytes} (h : GroupFits D level limit blocks)
    (hlimit : limit < 2 ^ 32) {file : Bytes} {p : Nat}
    (hfile : file.drop p <+: groupBytes D level blocks)
    (hbeg : begHeaderSize ≤ (file.drop p).length)
    (hcut : (file.drop p).length < (groupGc D level blocks).toNat +
      (idxHeaderBaseSize + 8 * blocks.length))
    (hsize : p + (groupBytes D level blocks).length < 2 ^ 64) (fuel : Nat) (acc : Scan) :
    buildLoop (fuel + 1) acc ⟨file, p, []⟩ = .error (.error (.io .unexpectedEof)) ⟨file,
      file.length, []⟩ := by
  obtain ⟨zc, tail, hhead⟩ := groupWith_eq D level (groupGc D level blocks) h.ne_nil
  have hheader : begHeader zc (groupGc D level blocks) <+: file.drop p := by
    have hgroup : begHeader zc (groupGc D level blocks) <+: groupBytes D level blocks := by
      rw [groupBytes, hhead]
      exact List.prefix_append _ _
    exact List.prefix_of_prefix_length_le hgroup hfile (by rwa [length_begHeader])
  have hmembers : (groupMembers D level (groupGc D level blocks) blocks).flatten.length =
      (groupGc D level blocks).toNat := by
    rw [groupGc_toNat h hlimit, ← RunningSum.sum_map_length, ← RunningSum.sum_map_length,
      map_length_groupMembers D level _ 0]
  have hlength : (groupGc D level blocks).toNat ≤ (groupBytes D level blocks).length := by
    rw [groupBytes, groupWith, List.length_append, hmembers]
    omega
  have hidx : file.drop (p + (groupGc D level blocks).toNat) <+:
      idxHeader (idxZc D level blocks.length) (groupEntries D level blocks) := by
    have hdrop := List.IsPrefix.drop hfile (groupGc D level blocks).toNat
    rw [List.drop_drop, groupBytes, groupWith, ← hmembers, List.drop_left, hmembers] at hdrop
    refine List.prefix_of_prefix_length_le hdrop ?_ ?_
    · rw [idxMember, length_groupEntries, List.append_assoc]
      exact List.prefix_append _ _
    · rw [length_idxHeader, length_groupEntries, List.length_drop]
      rw [List.length_drop] at hcut
      omega
  have hshort : (file.drop (p + (groupGc D level blocks).toNat)).length <
      idxHeaderBaseSize + 8 * (groupEntries D level blocks).length := by
    rw [length_groupEntries, ← List.drop_drop, List.length_drop]
    rw [idxHeaderBaseSize] at hcut ⊢
    omega
  have hscan := scanIdx_eof (q := p + begHeaderSize) hidx hshort
    (by rw [length_groupEntries]; exact h.length_le) acc
  rw [buildLoop, Program.bind_ok (Prog.attempt_ok (Source.streamPosition_apply _ _))]
  simp only
  rw [← length_begHeader zc (groupGc D level blocks),
    Program.bind_ok (Prog.attempt_ok (Source.readExact_prefix hheader))]
  simp only
  rw [length_begHeader, Program.bind_apply,
    scanGroup_of_ne_zero (groupGc_ne_zero h hlimit) (by omega), Program.bind_error hscan]

variable (D level) in
theorem groupBytes_length_pos (blocks : List Bytes) : 0 < (groupBytes D level blocks).length := by
  rw [groupBytes, length_groupWith, idxSize, idxHeaderBaseSize]
  omega

theorem buildLoop_groups {limit : Nat} {groups : List (List Bytes)}
    (h : ∀ blocks ∈ groups, GroupFits D level limit blocks) (hlimit : limit < 2 ^ 32)
    {file rest : Bytes} {p : Nat} (hfile : file.drop p = fileBytes D level groups ++ rest)
    (hsize : file.length < 2 ^ 64) (fuel : Nat) (acc : Scan) :
    buildLoop (groups.length + fuel) acc ⟨file, p, []⟩ =
      buildLoop fuel (groups.foldl (Scan.addGroup D level) acc) ⟨file,
        p + (fileBytes D level groups).length, []⟩ := by
  induction groups generalizing p acc with
  | nil =>
    rw [List.length_nil, Nat.zero_add, fileBytes, List.flatMap_nil, List.length_nil, Nat.add_zero,
      List.foldl_nil]
  | cons blocks groups ih =>
    rw [fileBytes_cons, List.append_assoc] at hfile
    have hnext : file.drop (p + (groupBytes D level blocks).length) = fileBytes D level groups ++
        rest := by
      rw [← List.drop_drop, hfile, List.drop_left]
    have hfront := hfile
    rw [groupBytes_eq_front, List.append_assoc] at hfront
    have hroom : p + (groupBytes D level blocks).length < 2 ^ 64 := by
      have hlen := congrArg List.length hfile
      have hpos := groupBytes_length_pos D level blocks
      rw [List.length_drop, List.length_append] at hlen
      omega
    rw [List.length_cons, Nat.add_right_comm,
      buildLoop_group (h blocks List.mem_cons_self) hlimit hfront hroom,
      ih (fun b hb => h b (List.mem_cons_of_mem _ hb)) hnext, List.foldl_cons, fileBytes_cons,
        List.length_append,
      Nat.add_assoc]

variable (D level) in
theorem length_groups_le (groups : List (List Bytes)) :
    groups.length ≤ (fileBytes D level groups).length := by
  induction groups with
  | nil => exact Nat.zero_le _
  | cons blocks groups ih =>
    have hpos := groupBytes_length_pos D level blocks
    rw [fileBytes_cons, List.length_append, List.length_cons]
    omega

theorem build_eq {limit : Nat} {groups : List (List Bytes)}
    (h : ∀ blocks ∈ groups, GroupFits D level limit blocks) (hlimit : limit < 2 ^ 32) {rest : Bytes}
    (hsize : (fileBytes D level groups ++ rest).length < 2 ^ 64) (q : Nat) :
    ∃ fuel, rest.length ≤ fuel ∧ build ⟨fileBytes D level groups ++ rest, q, []⟩ = (do
      let acc ← buildLoop (fuel + 1) (groups.foldl (Scan.addGroup D level) ⟨[], [], [], 0, 0, 0⟩)
      return ⟨acc.blocks, acc.compressedOffsets ++ [acc.cumC],
        acc.uncompressedOffsets ++ [acc.cumU], acc.groupCount⟩ :
        Prog Source PgzfIndex) ⟨fileBytes D level groups ++ rest,
          (fileBytes D level groups).length, []⟩ := by
  have hgroups := length_groups_le D level groups
  obtain ⟨fuel, hfuel⟩ : ∃ fuel, (fileBytes D level groups ++ rest).length + 1 = groups.length +
      (fuel + 1) :=
    ⟨(fileBytes D level groups ++ rest).length - groups.length, by rw [List.length_append]; omega⟩
  refine ⟨fuel, by rw [List.length_append] at hfuel; omega, ?_⟩
  rw [build, Program.bind_ok (Source.seekStart_apply _ _ _), Program.bind_ok (Program.get_apply _)]
  simp only
  rw [hfuel, Program.bind_apply, buildLoop_groups h hlimit (p := 0) rfl hsize, Nat.zero_add,
    Program.bind_apply]

/-! ### The index of a file of whole groups -/

section Layout

variable (D level)

/-- What the index says of the blocks of a file whose first group has the given number. -/
def blockMetas : Nat → List (List Bytes) → List BlockMeta
  | _, [] => []
  | g, blocks :: groups =>
    ((groupEntries D level blocks).mapIdx fun i e =>
      (⟨UInt32.ofNat g, UInt32.ofNat i, e.compressedSize, e.uncompressedSize⟩ : BlockMeta)) ++
        blockMetas (g + 1) groups

def indexOf (groups : List (List Bytes)) : PgzfIndex where
  blocks := blockMetas D level 0 groups
  compressedOffsets := memberOffsets D level 0 groups ++ [(fileBytes D level groups).length]
  uncompressedOffsets :=
    RunningSum.starts 0 (groups.flatten.map List.length) ++ [groups.flatten.flatten.length]
  groupCount := groups.length

end Layout

theorem Scan.addGroup_eq {limit : Nat} {blocks : List Bytes} (h : GroupFits D level limit blocks)
    (hlimit : limit < 2 ^ 32) (acc : Scan) :
    acc.addGroup D level blocks =
      { blocks := acc.blocks ++ blockMetas D level acc.groupCount [blocks]
        compressedOffsets := acc.compressedOffsets ++
          RunningSum.starts acc.cumC ((groupMembers D level 0 blocks).map List.length)
        uncompressedOffsets :=
          acc.uncompressedOffsets ++ RunningSum.starts acc.cumU (blocks.map List.length)
        cumC := acc.cumC + (groupBytes D level blocks).length
        cumU := acc.cumU + blocks.flatten.length
        groupCount := acc.groupCount + 1 } := by
  have hidxZc : (idxZc D level blocks.length).toNat = idxSize D level blocks.length :=
    idxZc_toNat (Nat.lt_of_le_of_lt h.idx hlimit)
  simp only [Scan.addGroup, Scan.addEntries, uncompressedSizes_eq h, compressedSizes_eq h hlimit,
    RunningSum.sum_map_length, hidxZc, groupBytes, length_groupWith, Nat.add_assoc, blockMetas,
      List.append_nil]

theorem foldl_addGroup {limit : Nat} {groups : List (List Bytes)}
    (h : ∀ blocks ∈ groups, GroupFits D level limit blocks) (hlimit : limit < 2 ^ 32) (acc : Scan) :
    groups.foldl (Scan.addGroup D level) acc =
      { blocks := acc.blocks ++ blockMetas D level acc.groupCount groups
        compressedOffsets := acc.compressedOffsets ++ memberOffsets D level acc.cumC groups
        uncompressedOffsets := acc.uncompressedOffsets ++
          RunningSum.starts acc.cumU (groups.flatten.map List.length)
        cumC := acc.cumC + (fileBytes D level groups).length
        cumU := acc.cumU + groups.flatten.flatten.length
        groupCount := acc.groupCount + groups.length } := by
  induction groups generalizing acc with
  | nil => simp [blockMetas, memberOffsets, fileBytes]
  | cons blocks groups ih =>
    rw [List.foldl_cons, ih (fun b hb => h b (List.mem_cons_of_mem _ hb)),
      Scan.addGroup_eq (h blocks List.mem_cons_self) hlimit]
    simp only [blockMetas, memberOffsets, fileBytes_cons, List.flatten_cons, List.flatten_append,
      List.map_append,
      RunningSum.starts_append, RunningSum.sum_map_length, List.length_append, List.length_cons,
        List.append_nil,
      List.append_assoc, Nat.add_assoc, Nat.add_comm 1]

theorem build_fileBytes {limit : Nat} {groups : List (List Bytes)}
    (h : ∀ blocks ∈ groups, GroupFits D level limit blocks) (hlimit : limit < 2 ^ 32) {rest : Bytes}
    (hstops : Stops rest) (hsize : (fileBytes D level groups ++ rest).length < 2 ^ 64) (q : Nat) :
    ∃ q', build ⟨fileBytes D level groups ++ rest, q, []⟩ =
      .ok (indexOf D level groups) ⟨fileBytes D level groups ++ rest, q', []⟩ := by
  obtain ⟨fuel, -, hbuild⟩ := build_eq h hlimit hsize q
  obtain ⟨q', hstop⟩ := buildLoop_stop
    (show Stops ((fileBytes D level groups ++ rest).drop
      (fileBytes D level groups).length) by rwa [List.drop_left]) fuel
    (groups.foldl (Scan.addGroup D level) ⟨[], [], [], 0, 0, 0⟩)
  refine ⟨q', ?_⟩
  rw [hbuild, Program.bind_ok hstop, foldl_addGroup h hlimit, Program.pure_apply]
  simp only [List.nil_append, Nat.zero_add, indexOf]

/-- A last group that is complete up to its table is entered like the others. -/
theorem build_front {limit : Nat} {groups : List (List Bytes)}
    (h : ∀ blocks ∈ groups, GroupFits D level limit blocks) (hlimit : limit < 2 ^ 32)
    {blocks : List Bytes} (hblocks : GroupFits D level limit blocks) {rest : Bytes}
    (hrest : rest.length ≤ (deflated D level []).length + pgzfTailSize)
    (hsize : (fileBytes D level groups ++ groupBytes D level blocks).length < 2 ^ 64) (q : Nat) :
    ∃ q', build ⟨fileBytes D level groups ++ (groupFront D level blocks ++ rest), q, []⟩ =
      .ok (indexOf D level (groups ++ [blocks]))
        ⟨fileBytes D level groups ++ (groupFront D level blocks ++ rest), q', []⟩ := by
  have hlen : (groupBytes D level blocks).length =
      (groupFront D level blocks).length + ((deflated D level []).length + pgzfTailSize) := by
    rw [groupBytes_eq_front, List.length_append, List.length_append, List.length_replicate]
  have hpos : 0 < (groupFront D level blocks).length := by
    rw [groupFront, List.length_append, length_idxHeader, idxHeaderBaseSize]
    omega
  rw [List.length_append] at hsize
  obtain ⟨fuel, hfuel, hbuild⟩ := build_eq h hlimit
    (show (fileBytes D level groups ++ (groupFront D level blocks ++ rest)).length < 2 ^ 64 by
      simp only [List.length_append]; omega) q
  obtain ⟨fuel, rfl⟩ : ∃ m, fuel = m + 1 := ⟨fuel - 1, by rw [List.length_append] at hfuel; omega⟩
  have hgroup := buildLoop_group hblocks hlimit
    (show (fileBytes D level groups ++ (groupFront D level blocks ++ rest)).drop
      (fileBytes D level groups).length =
      groupFront D level blocks ++ rest from List.drop_left) hsize (fuel + 1)
    (groups.foldl (Scan.addGroup D level) ⟨[], [], [], 0, 0, 0⟩)
  have hend : Stops ((fileBytes D level groups ++ (groupFront D level blocks ++ rest)).drop
      ((fileBytes D level groups).length + (groupBytes D level blocks).length)) := by
    left
    simp only [List.length_drop, List.length_append, begHeaderSize]
    omega
  obtain ⟨q', hstop⟩ := buildLoop_stop hend fuel
    ((groups.foldl (Scan.addGroup D level) ⟨[], [], [], 0, 0, 0⟩).addGroup D level blocks)
  refine ⟨q', ?_⟩
  have hall : ∀ b ∈ groups ++ [blocks], GroupFits D level limit b := fun b hb =>
    (List.mem_append.mp hb).elim (h b) fun hb => List.mem_singleton.mp hb ▸ hblocks
  have hfold := foldl_addGroup hall hlimit ⟨[], [], [], 0, 0, 0⟩
  rw [List.foldl_append, List.foldl_cons, List.foldl_nil] at hfold
  rw [hbuild, Program.bind_ok (hgroup.trans hstop), hfold, Program.pure_apply]
  simp only [List.nil_append, Nat.zero_add, indexOf]

/-- A finished group whose index table is cut off makes `build` fail, whatever stands before it. -/
theorem build_cut {limit : Nat} {groups : List (List Bytes)}
    (h : ∀ blocks ∈ groups, GroupFits D level limit blocks) (hlimit : limit < 2 ^ 32)
    {blocks : List Bytes} (hblocks : GroupFits D level limit blocks) {rest : Bytes}
    (hrest : rest <+: groupBytes D level blocks) (hbeg : begHeaderSize ≤ rest.length)
    (hcut : rest.length < (groupGc D level blocks).toNat + (idxHeaderBaseSize + 8 * blocks.length))
    (hsize : (fileBytes D level groups ++ groupBytes D level blocks).length < 2 ^ 64) (q : Nat) :
    build ⟨fileBytes D level groups ++ rest, q, []⟩ = .error (.error (.io .unexpectedEof))
      ⟨fileBytes D level groups ++ rest, (fileBytes D level groups ++ rest).length, []⟩ := by
  have hdrop : (fileBytes D level groups ++ rest).drop (fileBytes D level groups).length = rest :=
    List.drop_left
  have hle := hrest.length_le
  rw [List.length_append] at hsize
  obtain ⟨fuel, -, hbuild⟩ := build_eq h hlimit
    (show (fileBytes D level groups ++ rest).length < 2 ^ 64 by rw [List.length_append]; omega) q
  have hloop := buildLoop_cut hblocks hlimit
    (show (fileBytes D level groups ++ rest).drop (fileBytes D level groups).length <+:
        groupBytes D level blocks by
      rwa [hdrop]) (by rwa [hdrop]) (by rwa [hdrop]) hsize fuel
    (groups.foldl (Scan.addGroup D level) ⟨[], [], [], 0, 0, 0⟩)
  rw [hbuild, Program.bind_error hloop]

end Pgzf
