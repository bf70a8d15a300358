import Pgzf.Seeking

/-!
# Iterating over the raw members

A caller that asks for raw members until there are none gets the members of a written file in order:
each is its own frame, so one read ends where the next begins. The labels count the data members on
the way.
-/

namespace Pgzf

open PgzfReader Program

variable {D : Deps} {file : Bytes} {r : PgzfReader D}

/-- The loop of a caller: raw members until there are none, one turn for each and one to stop. -/
def rawMembers : Nat → Prog (PgzfReader D) (List RawBlock)
  | 0 => throw .diverges
  | fuel + 1 => do
    match ← readOneRawBlock with
    | none => return []
    | some block =>
      let rest ← rawMembers fuel
      return block :: rest

structure RawMember where
  raw : Bytes
  headerSize : Nat
  blockType : BlockType

/-- The members with their labels: a data member takes
the next number, an index member goes without. -/
def rawBlocks : Nat → List RawMember → List RawBlock
  | _, [] => []
  | next, member :: rest =>
    ⟨member.raw, member.headerSize, member.blockType, next⟩ ::
      rawBlocks (if member.blockType = .idx then next else next + 1) rest

/-- Framed members up to the end of the file are read one after another. -/
theorem rawMembers_framed {members : List RawMember}
    (hframed : ∀ member ∈ members, Framed member.raw member.headerSize member.blockType) {p : Nat}
    (hin : r.inner = ⟨file, p, []⟩) (hp : p ≤ file.length)
    (hfile : file.drop p = (members.map RawMember.raw).flatten) {fuel : Nat}
    (hfuel : members.length < fuel) :
    ∃ r', rawMembers fuel r = .ok (rawBlocks r.nextBlockIndex members) r' := by
  induction members generalizing r p fuel with
  | nil =>
    obtain ⟨fuel, rfl⟩ := Nat.exists_eq_succ_of_ne_zero (Nat.ne_of_gt hfuel)
    have hend : p = file.length := by
      have hlen := congrArg List.length hfile
      rw [List.length_drop, List.map_nil, List.flatten_nil, List.length_nil] at hlen
      omega
    subst hend
    refine ⟨r, ?_⟩
    rw [rawMembers, bind_ok (readOneRawBlock_end hin)]
    rfl
  | cons member rest ih =>
    obtain ⟨fuel, rfl⟩ :=
      Nat.exists_eq_succ_of_ne_zero (Nat.ne_of_gt (Nat.lt_of_le_of_lt (Nat.zero_le _) hfuel))
    rw [List.map_cons, List.flatten_cons] at hfile
    have hread := readOneRawBlock_framed (hframed member List.mem_cons_self) hin ⟨_, hfile.symm⟩
    have hnext : file.drop (p + member.raw.length) = (rest.map RawMember.raw).flatten := by
      rw [← List.drop_drop, hfile, List.drop_left]
    have hle : p + member.raw.length ≤ file.length := by
      have hlen := congrArg List.length hfile
      rw [List.length_drop, List.length_append] at hlen
      omega
    obtain ⟨r', hrest⟩ := ih (r := { r with
        inner := ⟨file, p + member.raw.length, []⟩
        nextBlockIndex := if member.blockType = .idx then r.nextBlockIndex
          else r.nextBlockIndex + 1 })
      (fun m hm => hframed m (List.mem_cons_of_mem _ hm)) rfl hle hnext
        (Nat.lt_of_succ_lt_succ hfuel)
    refine ⟨r', ?_⟩
    rw [rawMembers, bind_ok hread]
    simp only
    rw [bind_ok hrest]
    rfl

/-! ### Labels -/

def RawBlock.IsData (block : RawBlock) : Prop := block.blockType ≠ .idx

instance (block : RawBlock) : Decidable block.IsData := inferInstanceAs (Decidable (_ ≠ _))

@[simp] theorem map_raw_rawBlocks (next : Nat) (members : List RawMember) :
    (rawBlocks next members).map RawBlock.raw = members.map RawMember.raw := by
  induction members generalizing next with
  | nil => rfl
  | cons member rest ih => rw [rawBlocks, List.map_cons, List.map_cons, ih]

@[simp] theorem map_headerSize_rawBlocks (next : Nat) (members : List RawMember) :
    (rawBlocks next members).map RawBlock.headerSize = members.map RawMember.headerSize := by
  induction members generalizing next with
  | nil => rfl
  | cons member rest ih => rw [rawBlocks, List.map_cons, List.map_cons, ih]

@[simp] theorem map_blockType_rawBlocks (next : Nat) (members : List RawMember) :
    (rawBlocks next members).map RawBlock.blockType = members.map RawMember.blockType := by
  induction members generalizing next with
  | nil => rfl
  | cons member rest ih => rw [rawBlocks, List.map_cons, List.map_cons, ih]

theorem dataIndices_rawBlocks (next : Nat) (members : List RawMember) :
    ((rawBlocks next members).filter fun block => block.IsData).map RawBlock.blockIndex =
      List.range' next ((rawBlocks next members).filter fun block => block.IsData).length := by
  induction members generalizing next with
  | nil => rfl
  | cons member rest ih =>
    rw [rawBlocks]
    by_cases hidx : member.blockType = .idx
    · rw [List.filter_cons_of_neg (by simp [RawBlock.IsData, hidx]), if_pos hidx]
      exact ih next
    · rw [List.filter_cons_of_pos (by simp [RawBlock.IsData, hidx]), if_neg hidx, List.map_cons, ih,
        List.length_cons, List.range'_succ]

theorem blockIndex_rawBlocks {next : Nat} {members : List RawMember} {front back : List RawBlock}
    {block : RawBlock} (h : rawBlocks next members = front ++ block :: back) :
    block.blockIndex = next + (front.filter fun block => block.IsData).length := by
  induction front generalizing next members with
  | nil =>
    cases members with
    | nil => exact absurd h (by simp [rawBlocks])
    | cons member rest =>
      obtain ⟨rfl, -⟩ := List.cons.inj h
      rfl
  | cons first front ih =>
    cases members with
    | nil => exact absurd h (by simp [rawBlocks])
    | cons member rest =>
      obtain ⟨rfl, hrest⟩ := List.cons.inj h
      rw [ih hrest]
      by_cases hidx : member.blockType = .idx
      · rw [List.filter_cons_of_neg (by simp [RawBlock.IsData, hidx]), if_pos hidx]
      · rw [List.filter_cons_of_pos (by simp [RawBlock.IsData, hidx]), if_neg hidx,
          List.length_cons]
        omega

/-! ### The members of a written file -/

section Written

open PgzfWriter

variable (D) (level : Nat)

def dataRawMembers (gc : UInt64) : List Bytes → List RawMember
  | [] => []
  | data :: rest => ⟨begMember D level gc data, begHeaderSize, .beg⟩ ::
      rest.map fun data => ⟨datMember D level data, datHeaderSize, .dat⟩

def groupRawMembers (blocks : List Bytes) : List RawMember :=
  dataRawMembers D level (groupGc D level blocks) blocks ++
    [⟨idxMember D level (groupEntries D level blocks), idxHeaderBaseSize + 8 * blocks.length, .idx⟩]

def fileRawMembers (groups : List (List Bytes)) : List RawMember :=
  groups.flatMap (groupRawMembers D level)

variable {D level}

theorem map_raw_dataRawMembers (gc : UInt64) (blocks : List Bytes) :
    (dataRawMembers D level gc blocks).map RawMember.raw = groupMembers D level gc blocks := by
  cases blocks with
  | nil => rfl
  | cons data rest =>
    simp only [dataRawMembers, groupMembers, List.map_cons, List.map_map, Function.comp_def]

theorem flatten_groupRawMembers (blocks : List Bytes) :
    ((groupRawMembers D level blocks).map RawMember.raw).flatten = groupBytes D level blocks := by
  rw [groupRawMembers, List.map_append, map_raw_dataRawMembers, List.flatten_append, groupBytes,
    groupWith]
  simp only [List.map_cons, List.map_nil, List.flatten_cons, List.flatten_nil, List.append_nil]

theorem flatten_fileRawMembers (groups : List (List Bytes)) :
    ((fileRawMembers D level groups).map RawMember.raw).flatten = fileBytes D level groups := by
  induction groups with
  | nil => rfl
  | cons blocks rest ih =>
    rw [fileBytes_cons, ← ih, ← flatten_groupRawMembers, ← List.flatten_append, ← List.map_append]
    rfl

theorem framed_dataRawMembers (gc : UInt64) {blocks : List Bytes}
    (h : GroupFits D level (2 ^ 30) blocks) :
    ∀ member ∈ dataRawMembers D level gc blocks,
      Framed member.raw member.headerSize member.blockType := by
  cases blocks with
  | nil => exact fun member hmember => absurd hmember List.not_mem_nil
  | cons first rest =>
    intro member hmember
    rw [dataRawMembers, List.mem_cons, List.mem_map] at hmember
    rcases hmember with rfl | ⟨data, hdata, rfl⟩
    · have hsize := h.member _ List.mem_cons_self
      rw [length_begMember] at hsize
      exact framed_begMember hsize
    · have hsize :=
        h.member (datMember D level data) (List.mem_cons_of_mem _ (List.mem_map_of_mem hdata))
      rw [length_datMember] at hsize
      exact framed_datMember hsize

theorem framed_fileRawMembers {groups : List (List Bytes)}
    (h : ∀ blocks ∈ groups, GroupFits D level (2 ^ 30) blocks) :
    ∀ member ∈ fileRawMembers D level groups,
      Framed member.raw member.headerSize member.blockType := by
  intro member hmember
  obtain ⟨blocks, hblocks, hmember⟩ := List.mem_flatMap.mp hmember
  have hfits := h blocks hblocks
  rw [groupRawMembers, List.mem_append, List.mem_singleton] at hmember
  rcases hmember with hdata | rfl
  · exact framed_dataRawMembers _ hfits member hdata
  · have hcount : (groupEntries D level blocks).length ≤ 8190 := by
      rw [length_groupEntries]
      exact hfits.length_le
    have hframed := framed_idxMember hcount (by rw [length_groupEntries]; exact hfits.idx)
    rwa [length_groupEntries] at hframed

/-- What raw iteration is to yield: the writer's members in order, which
make up the file, in groups of one `BEG`, some `DAT` and one `IDX`
member, labelled with the number of data blocks in front of them. -/
structure Partition (D : Deps) (level : Nat) (groups : List (List Bytes)) (file : Bytes)
    (found : List RawBlock) : Prop where
  groups_ne_nil : groups ≠ []
  raws : found.map RawBlock.raw = (fileRawMembers D level groups).map RawMember.raw
  flatten : (found.map RawBlock.raw).flatten = file
  types : found.map RawBlock.blockType =
    groups.flatMap fun blocks => .beg :: List.replicate (blocks.length - 1) .dat ++ [.idx]
  headerSizes : found.map RawBlock.headerSize =
    groups.flatMap fun blocks => 32 :: List.replicate (blocks.length - 1) 20 ++
      [24 + 8 * blocks.length]
  dataIndices : (found.filter fun block => block.IsData).map RawBlock.blockIndex =
    List.range groups.flatten.length
  indices : ∀ front block back, found = front ++ block :: back →
    block.blockIndex = (front.filter fun block => block.IsData).length

theorem map_fileRawMembers {α : Type} (f : RawMember → α) {g : List Bytes → List α}
    {groups : List (List Bytes)}
    (h : ∀ blocks ∈ groups, (groupRawMembers D level blocks).map f = g blocks) :
    (fileRawMembers D level groups).map f = groups.flatMap g := by
  rw [fileRawMembers, List.map_flatMap]
  exact List.flatMap_congr h

theorem countP_groupRawMembers (blocks : List Bytes) :
    ((groupRawMembers D level blocks).map RawMember.blockType).countP (fun ty => ty ≠ .idx) =
      blocks.length := by
  cases blocks with
  | nil => rfl
  | cons first rest =>
    simp [groupRawMembers, dataRawMembers, Function.comp_def, List.map_const',
      List.countP_replicate]

theorem countP_fileRawMembers (groups : List (List Bytes)) :
    ((fileRawMembers D level groups).map RawMember.blockType).countP (fun ty => ty ≠ .idx) =
      groups.flatten.length := by
  induction groups with
  | nil => rfl
  | cons blocks rest ih =>
    rw [fileRawMembers, List.flatMap_cons, List.map_append, List.countP_append,
      countP_groupRawMembers, List.flatten_cons, List.length_append, ← ih]
    rfl

theorem length_filter_rawBlocks (next : Nat) (members : List RawMember) :
    ((rawBlocks next members).filter fun block => block.IsData).length =
      (members.map RawMember.blockType).countP fun ty => ty ≠ .idx := by
  rw [← map_blockType_rawBlocks next, List.countP_map, List.countP_eq_length_filter]
  rfl

variable (D level) in
theorem partition_rawBlocks {groups : List (List Bytes)} (hgroups : groups ≠ [])
    (hne : ∀ blocks ∈ groups, blocks ≠ []) :
    Partition D level groups (fileBytes D level groups)
      (rawBlocks 0 (fileRawMembers D level groups)) := by
  have htypes : (fileRawMembers D level groups).map RawMember.blockType =
      groups.flatMap fun blocks => .beg :: List.replicate (blocks.length - 1) .dat ++ [.idx] := by
    apply map_fileRawMembers
    intro blocks hblocks
    obtain ⟨first, rest, rfl⟩ := List.exists_cons_of_ne_nil (hne blocks hblocks)
    simp [groupRawMembers, dataRawMembers, Function.comp_def, List.map_const']
  have hsizes : (fileRawMembers D level groups).map RawMember.headerSize =
      groups.flatMap fun blocks => 32 :: List.replicate (blocks.length - 1) 20 ++
          [24 + 8 * blocks.length] := by
    apply map_fileRawMembers
    intro blocks hblocks
    obtain ⟨first, rest, rfl⟩ := List.exists_cons_of_ne_nil (hne blocks hblocks)
    simp [groupRawMembers, dataRawMembers, Function.comp_def, List.map_const', begHeaderSize,
      datHeaderSize, idxHeaderBaseSize]
  refine ⟨hgroups, map_raw_rawBlocks _ _, ?_, ?_, ?_, ?_, ?_⟩
  · rw [map_raw_rawBlocks, flatten_fileRawMembers]
  · rw [map_blockType_rawBlocks, htypes]
  · rw [map_headerSize_rawBlocks, hsizes]
  · rw [dataIndices_rawBlocks, length_filter_rawBlocks, countP_fileRawMembers, List.range_eq_range']
  · intro front block back hfound
    rw [blockIndex_rawBlocks hfound, Nat.zero_add]

/-- Raw iteration on a fresh reader of a written file ends, and partitions the file. -/
theorem raw_iteration_partitions {config : PgzfConfig} {calls : List WriteCall}
    (hw : Written D config calls file) (hne : calls.flatMap WriteCall.bytes ≠ []) (q : Nat) :
    ∃ reader s' found, new D ⟨file, q, []⟩ = .ok reader s' ∧
      reader.blockCount = some (config.blocksOf (calls.flatMap WriteCall.bytes)).length ∧
      (∀ fuel, found.length < fuel → ∃ r', rawMembers fuel reader = .ok found r') ∧
      Partition D config.compressionLevel (config.groupsOf (calls.flatMap WriteCall.bytes))
        file found ∧
      (config.groupsOf (calls.flatMap WriteCall.bytes)).flatten = config.blocksOf
        (calls.flatMap WriteCall.bytes) := by
  have hfits := hw.inBounds.fits hw.blockSize_pos
  have hgroups := groupsOf_ne_nil hw.blockSize_pos hne
  have hfile := hw.file_eq
  have hnew : new D ⟨file, q, []⟩ = .ok (fresh D file (indexOf D config.compressionLevel
      (config.groupsOf (calls.flatMap WriteCall.bytes)))) ⟨file, 0, []⟩ := by
    have hopens := new_written hw.withinLimits (by decide) hne q
    rw [groupsOf_fitted hw.blockSize_pos] at hopens
    rw [hfile]
    exact hopens
  have hreach : Reachable ⟨file, q, []⟩ (fresh D file _) := ⟨_, _, hnew, .refl⟩
  obtain ⟨index, raws, hl, hon, -⟩ := hreach.written hw
  have hpartition := partition_rawBlocks D config.compressionLevel hgroups
    fun blocks hblocks => (hfits blocks hblocks).ne_nil
  rw [← hfile] at hpartition
  refine ⟨_, _, _, hnew, ?_, fun fuel hfuel => ?_, hpartition, flatten_groupsOf config _⟩
  · rw [PgzfReader.blockCount, hon.index_eq, Option.map_some, hl.described.blockCount]
  · have hlen := congrArg List.length hpartition.raws
    rw [List.length_map, List.length_map] at hlen
    have hdrop : file.drop 0 = ((fileRawMembers D config.compressionLevel
        (config.groupsOf (calls.flatMap WriteCall.bytes))).map RawMember.raw).flatten :=
      hfile.trans (flatten_fileRawMembers _).symm
    exact rawMembers_framed (framed_fileRawMembers hfits) rfl (Nat.zero_le _) hdrop (by omega)

end Written

theorem raw_iteration_partitions_sample :
    ∃ reader s' found, new Stored.deps ⟨Stored.sampleFile, 0, []⟩ = .ok reader s' ∧
      reader.blockCount = some 4 ∧
      (∀ fuel, found.length < fuel → ∃ r', rawMembers fuel reader = .ok found r') ∧
      Partition Stored.deps Stored.sampleConfig.compressionLevel [[[97, 98], [99, 100]],
        [[101, 102], [103]]]
        Stored.sampleFile found ∧
      [[[97, 98], [99, 100]], [[101, 102], [103]]].flatten = [[97, 98], [99, 100], [101, 102],
        [(103 : UInt8)]] :=
  raw_iteration_partitions Stored.written_sample (by decide) 0

end Pgzf
