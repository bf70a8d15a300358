import Pgzf.Damage

/-!
# Files of any writer (`pgzf.spec.md`, sections 3 to 6)

A group as the specification draws it, whoever has written it. A writer chooses how to cut the data
into blocks, and for each block a deflate stream that inflates to it; the headers, the trailers and
the index table then follow. `build` finds the blocks of such a file, and they stand where the index
lists them.
-/

namespace Pgzf

open PgzfReader PgzfIndex

/-- A data block: its data, and the deflate stream its writer has chosen for it. -/
structure DataBlock where
  data : Bytes
  stream : Bytes
  deriving DecidableEq, Repr

structure SpecGroup where
  blocks : List DataBlock
  idxStream : Bytes
  deriving DecidableEq, Repr

/-! ### Members -/

namespace DataBlock

/-- The length of the member of a block, behind a header of the given size. -/
def memberSize (headerSize : Nat) (block : DataBlock) : Nat :=
  headerSize + block.stream.length + pgzfTailSize

def memberZc (headerSize : Nat) (block : DataBlock) : UInt32 :=
  UInt32.ofNat (block.memberSize headerSize)

def begMember (D : Deps) (gc : UInt64) (block : DataBlock) : Bytes :=
  begHeader (block.memberZc begHeaderSize) gc ++ block.stream ++ trailer D block.data

def datMember (D : Deps) (block : DataBlock) : Bytes :=
  datHeader (block.memberZc datHeaderSize) ++ block.stream ++ trailer D block.data

def entry (headerSize : Nat) (block : DataBlock) : IndexEntry :=
  ⟨block.memberZc headerSize, UInt32.ofNat block.data.length⟩

variable (D : Deps)

@[simp] theorem length_begMember (gc : UInt64) (block : DataBlock) :
    (block.begMember D gc).length = block.memberSize begHeaderSize := by
  simp only [begMember, List.length_append, length_begHeader, length_trailer, memberSize]

@[simp] theorem length_datMember (block : DataBlock) :
    (block.datMember D).length = block.memberSize datHeaderSize := by
  simp only [datMember, List.length_append, length_datHeader, length_trailer, memberSize]

theorem memberZc_toNat {headerSize : Nat} {block : DataBlock}
    (h : block.memberSize headerSize < 2 ^ 32) :
    (block.memberZc headerSize).toNat = block.memberSize headerSize :=
  UInt32.toNat_ofNat_of_lt' h

end DataBlock

namespace SpecGroup

variable (D : Deps)

/-- The data members, the first of which carries `GC`. -/
def members (gc : UInt64) (group : SpecGroup) : List Bytes :=
  match group.blocks with
  | [] => []
  | first :: rest => first.begMember D gc :: rest.map (DataBlock.datMember D)

def entries (group : SpecGroup) : List IndexEntry :=
  match group.blocks with
  | [] => []
  | first :: rest => first.entry begHeaderSize :: rest.map (DataBlock.entry datHeaderSize)

def idxSize (group : SpecGroup) : Nat :=
  idxHeaderBaseSize + 8 * group.blocks.length + group.idxStream.length + pgzfTailSize

def idxZc (group : SpecGroup) : UInt32 := UInt32.ofNat group.idxSize

def idxMember (group : SpecGroup) : Bytes :=
  idxHeader group.idxZc group.entries ++ (group.idxStream ++ List.replicate pgzfTailSize 0)

def membersSize (group : SpecGroup) : Nat := (group.members D 0).flatten.length

def gc (group : SpecGroup) : UInt64 := UInt64.ofNat (group.membersSize D)

def bytes (group : SpecGroup) : Bytes := (group.members D (group.gc D)).flatten ++ group.idxMember

/-- What sections 3 to 6 ask of a group. The sizes of the
data go into 32 bits, as the index table lists them. -/
structure Conforms (group : SpecGroup) : Prop where
  ne_nil : group.blocks ≠ []
  length_le : group.blocks.length ≤ 8190
  data : ∀ block ∈ group.blocks, block.data.length < 2 ^ 32
  inflates : ∀ block ∈ group.blocks, D.Inflates block.stream block.data
  member : ∀ member ∈ group.members D 0, member.length ≤ 2 ^ 30
  idxInflates : D.Inflates group.idxStream []
  idx : group.idxSize ≤ 2 ^ 30

def datas (group : SpecGroup) : List Bytes := group.blocks.map DataBlock.data

/-! ### Sizes -/

@[simp] theorem length_entries (group : SpecGroup) :
    group.entries.length = group.blocks.length := by
  rw [entries]
  cases group.blocks <;> simp

@[simp] theorem length_members (gc : UInt64) (group : SpecGroup) :
    (group.members D gc).length = group.blocks.length := by
  rw [members]
  cases group.blocks <;> simp

@[simp] theorem length_datas (group : SpecGroup) : group.datas.length = group.blocks.length :=
  List.length_map _

theorem map_length_members (gc gc' : UInt64) (group : SpecGroup) :
    (group.members D gc).map List.length = (group.members D gc').map List.length := by
  simp only [members]
  cases group.blocks <;> simp

theorem length_flatten_members (gc : UInt64) (group : SpecGroup) :
    (group.members D gc).flatten.length = group.membersSize D := by
  rw [membersSize, ← RunningSum.sum_map_length, ← RunningSum.sum_map_length,
    map_length_members D gc 0]

@[simp] theorem length_idxMember (group : SpecGroup) : group.idxMember.length = group.idxSize := by
  simp only [idxMember, List.length_append, length_idxHeader, length_entries,
    List.length_replicate, idxSize]
  omega

theorem length_bytes (group : SpecGroup) :
    (group.bytes D).length = group.membersSize D + group.idxSize := by
  rw [bytes, List.length_append, length_flatten_members, length_idxMember]

variable {D} {group : SpecGroup}

theorem Conforms.memberSize_le (h : group.Conforms D) {first : DataBlock} {rest : List DataBlock}
    (hblocks : group.blocks = first :: rest) :
    first.memberSize begHeaderSize ≤ 2 ^ 30 ∧ ∀ block ∈ rest,
      block.memberSize datHeaderSize ≤ 2 ^ 30 := by
  have hmember := h.member
  rw [members, hblocks] at hmember
  constructor
  · have hfirst := hmember _ List.mem_cons_self
    rwa [DataBlock.length_begMember] at hfirst
  · intro block hblock
    have hrest := hmember _ (List.mem_cons_of_mem _ (List.mem_map_of_mem hblock))
    rwa [DataBlock.length_datMember] at hrest

theorem Conforms.idxZc_toNat (h : group.Conforms D) : group.idxZc.toNat = group.idxSize := by
  have hidx := h.idx
  exact UInt32.toNat_ofNat_of_lt' (by rw [UInt32.size]; omega)

theorem Conforms.compressedSizes (h : group.Conforms D) :
    group.entries.map (fun e => e.compressedSize.toNat) = (group.members D 0).map List.length := by
  obtain ⟨first, rest, hblocks⟩ := List.exists_cons_of_ne_nil h.ne_nil
  obtain ⟨hfirst, hrest⟩ := h.memberSize_le hblocks
  simp only [entries, members, hblocks, List.map_cons, List.map_map, DataBlock.length_begMember,
    DataBlock.entry]
  rw [DataBlock.memberZc_toNat (by omega)]
  congr 1
  refine List.map_congr_left fun block hblock => ?_
  have hsize := hrest block hblock
  simp only [Function.comp, DataBlock.length_datMember]
  exact DataBlock.memberZc_toNat (by omega)

theorem Conforms.uncompressedSizes (h : group.Conforms D) :
    group.entries.map (fun e => e.uncompressedSize.toNat) = group.datas.map List.length := by
  obtain ⟨first, rest, hblocks⟩ := List.exists_cons_of_ne_nil h.ne_nil
  have hsize : ∀ block ∈ first :: rest, (UInt32.ofNat block.data.length).toNat =
      block.data.length :=
    fun block hblock => UInt32.toNat_ofNat_of_lt' (h.data block (by rwa [hblocks]))
  simp only [entries, datas, hblocks, List.map_cons, List.map_map, DataBlock.entry,
    hsize first List.mem_cons_self]
  congr 1
  exact List.map_congr_left fun block hblock => hsize block (List.mem_cons_of_mem _ hblock)

theorem Conforms.membersSize_pos (h : group.Conforms D) : 0 < group.membersSize D := by
  obtain ⟨first, rest, hblocks⟩ := List.exists_cons_of_ne_nil h.ne_nil
  simp only [membersSize, members, hblocks, List.flatten_cons, List.length_append,
    DataBlock.length_begMember, DataBlock.memberSize, begHeaderSize]
  omega

theorem Conforms.gc_toNat (h : group.Conforms D) : (group.gc D).toNat = group.membersSize D := by
  have hsum := RunningSum.length_flatten_le h.member
  rw [length_members, ← membersSize] at hsum
  have hbound : group.blocks.length * 2 ^ 30 ≤ 8190 * 2 ^ 30 := Nat.mul_le_mul_right _ h.length_le
  exact UInt64.toNat_ofNat_of_lt' (by rw [UInt64.size]; omega)

theorem Conforms.gc_ne_zero (h : group.Conforms D) : group.gc D ≠ 0 := by
  intro hzero
  have hgc := h.gc_toNat
  have hpos := h.membersSize_pos
  rw [hzero, UInt64.toNat_zero] at hgc
  omega

end SpecGroup

/-! ### Files -/

section Files

variable (D : Deps)

def specFile (groups : List SpecGroup) : Bytes := groups.flatMap (SpecGroup.bytes D)

def specDatas (groups : List SpecGroup) : List Bytes := groups.flatMap SpecGroup.datas

def specMembers (groups : List SpecGroup) : List Bytes :=
  groups.flatMap fun group => group.members D (group.gc D)

/-- What the index says of the blocks of a file whose first group has the given number. -/
def specMetas : Nat → List SpecGroup → List BlockMeta
  | _, [] => []
  | g, group :: groups =>
    (group.entries.mapIdx fun i e =>
      (⟨UInt32.ofNat g, UInt32.ofNat i, e.compressedSize, e.uncompressedSize⟩ : BlockMeta)) ++
        specMetas (g + 1) groups

def specOffsets : Nat → List SpecGroup → List Nat
  | _, [] => []
  | start, group :: groups =>
    RunningSum.starts start ((group.members D 0).map List.length) ++
      specOffsets (start + (group.bytes D).length) groups

def specIndex (groups : List SpecGroup) : PgzfIndex where
  blocks := specMetas 0 groups
  compressedOffsets := specOffsets D 0 groups ++ [(specFile D groups).length]
  uncompressedOffsets :=
    RunningSum.starts 0 ((specDatas groups).map List.length) ++ [(specDatas groups).flatten.length]
  groupCount := groups.length

theorem specFile_cons (group : SpecGroup) (groups : List SpecGroup) :
    specFile D (group :: groups) = group.bytes D ++ specFile D groups := List.flatMap_cons

theorem specDatas_cons (group : SpecGroup) (groups : List SpecGroup) :
    specDatas (group :: groups) = group.datas ++ specDatas groups := List.flatMap_cons

theorem length_specMetas (g : Nat) (groups : List SpecGroup) :
    (specMetas g groups).length = (specDatas groups).length := by
  induction groups generalizing g with
  | nil => rfl
  | cons group groups ih =>
    rw [specMetas, List.length_append, List.length_mapIdx, SpecGroup.length_entries, ih,
      specDatas_cons, List.length_append, SpecGroup.length_datas]

theorem blockCount_specIndex (groups : List SpecGroup) :
    (specIndex D groups).blockCount = (specDatas groups).length := length_specMetas 0 groups

theorem length_specDatas_le (groups : List SpecGroup) :
    (specDatas groups).length * 20 ≤ (specFile D groups).length := by
  induction groups with
  | nil => exact Nat.zero_le _
  | cons group groups ih =>
    have hmember : ∀ member ∈ group.members D 0, 20 ≤ member.length := by
      intro member hmember
      rw [SpecGroup.members] at hmember
      split at hmember
      · exact absurd hmember List.not_mem_nil
      · rcases List.mem_cons.mp hmember with rfl | hmember
        · rw [DataBlock.length_begMember, DataBlock.memberSize, begHeaderSize]
          omega
        · obtain ⟨block, -, rfl⟩ := List.mem_map.mp hmember
          rw [DataBlock.length_datMember, DataBlock.memberSize, datHeaderSize]
          omega
    have hsum := RunningSum.le_length_flatten hmember
    rw [SpecGroup.length_members, ← SpecGroup.membersSize] at hsum
    rw [specDatas_cons, specFile_cons, List.length_append, List.length_append,
      SpecGroup.length_datas, SpecGroup.length_bytes, Nat.add_mul]
    omega

end Files

/-! ### The scan -/

section Scanning

variable {D : Deps} {group : SpecGroup} {groups : List SpecGroup}

theorem SpecGroup.begHeader_prefix (gc : UInt64) (hne : group.blocks ≠ []) :
    ∃ zc, begHeader zc gc <+: (group.members D gc).flatten := by
  obtain ⟨first, rest, hblocks⟩ := List.exists_cons_of_ne_nil hne
  refine ⟨first.memberZc begHeaderSize, first.stream ++ trailer D first.data ++
    (rest.map (DataBlock.datMember D)).flatten, ?_⟩
  simp only [members, hblocks, List.flatten_cons, DataBlock.begMember, List.append_assoc]

theorem buildLoop_specGroup (h : group.Conforms D) {file rest : Bytes} {p : Nat}
    (hfile : file.drop p = group.bytes D ++ rest) (hsize : p + (group.bytes D).length < 2 ^ 64)
    (fuel : Nat) (acc : Scan) :
    buildLoop (fuel + 1) acc ⟨file, p, []⟩ =
      buildLoop fuel (acc.addTable group.entries group.idxZc) ⟨file,
        p + (group.bytes D).length, []⟩ := by
  obtain ⟨zc, hbeg⟩ := SpecGroup.begHeader_prefix (D := D) (group.gc D) h.ne_nil
  have hheader : begHeader zc (group.gc D) <+: file.drop p := by
    rw [hfile, SpecGroup.bytes, List.append_assoc]
    exact hbeg.trans (List.prefix_append _ _)
  have hidx : file.drop (p + (group.gc D).toNat) =
      idxHeader group.idxZc group.entries ++ (group.idxStream ++ List.replicate pgzfTailSize 0 ++
          rest) := by
    rw [← List.drop_drop, hfile, SpecGroup.bytes, h.gc_toNat,
      ← SpecGroup.length_flatten_members D (group.gc D),
      List.append_assoc, List.drop_left, SpecGroup.idxMember, List.append_assoc]
  rw [SpecGroup.length_bytes] at hsize
  rw [SpecGroup.length_bytes, ← h.gc_toNat, ← h.idxZc_toNat, ← Nat.add_assoc]
  exact buildLoop_turn hheader h.gc_ne_zero hidx
    (by rw [SpecGroup.length_entries]; exact h.length_le)
    (by rw [h.gc_toNat, h.idxZc_toNat]; omega) fuel acc

theorem buildLoop_specFile (h : ∀ group ∈ groups, group.Conforms D) {file rest : Bytes} {p : Nat}
    (hfile : file.drop p = specFile D groups ++ rest) (hsize : file.length < 2 ^ 64) (fuel : Nat)
    (acc : Scan) :
    buildLoop (groups.length + fuel) acc ⟨file, p, []⟩ =
      buildLoop fuel (groups.foldl (fun acc group => acc.addTable group.entries group.idxZc) acc)
        ⟨file, p + (specFile D groups).length, []⟩ := by
  induction groups generalizing p acc with
  | nil =>
    rw [List.length_nil, Nat.zero_add, specFile, List.flatMap_nil, List.length_nil, Nat.add_zero,
      List.foldl_nil]
  | cons group groups ih =>
    have hgroup := h group List.mem_cons_self
    rw [specFile_cons, List.append_assoc] at hfile
    have hnext : file.drop (p + (group.bytes D).length) = specFile D groups ++ rest := by
      rw [← List.drop_drop, hfile, List.drop_left]
    have hroom : p + (group.bytes D).length < 2 ^ 64 := by
      have hlen := congrArg List.length hfile
      have hpos := hgroup.membersSize_pos
      rw [List.length_drop, List.length_append, SpecGroup.length_bytes] at hlen
      rw [SpecGroup.length_bytes]
      omega
    rw [List.length_cons, Nat.add_right_comm, buildLoop_specGroup hgroup hfile hroom,
      ih (fun g hg => h g (List.mem_cons_of_mem _ hg)) hnext, List.foldl_cons, specFile_cons,
        List.length_append,
      Nat.add_assoc]

theorem foldl_addTable (h : ∀ group ∈ groups, group.Conforms D) (acc : Scan) :
    groups.foldl (fun acc group => acc.addTable group.entries group.idxZc) acc =
      { blocks := acc.blocks ++ specMetas acc.groupCount groups
        compressedOffsets := acc.compressedOffsets ++ specOffsets D acc.cumC groups
        uncompressedOffsets :=
          acc.uncompressedOffsets ++ RunningSum.starts acc.cumU ((specDatas groups).map List.length)
        cumC := acc.cumC + (specFile D groups).length
        cumU := acc.cumU + (specDatas groups).flatten.length
        groupCount := acc.groupCount + groups.length } := by
  induction groups generalizing acc with
  | nil => simp [specMetas, specOffsets, specFile, specDatas]
  | cons group groups ih =>
    have hgroup := h group List.mem_cons_self
    have hsum : (group.members D 0).flatten.length = group.membersSize D := rfl
    rw [List.foldl_cons, ih fun g hg => h g (List.mem_cons_of_mem _ hg)]
    simp only [Scan.addTable, Scan.addEntries, hgroup.compressedSizes, hgroup.uncompressedSizes,
      hgroup.idxZc_toNat,
      RunningSum.sum_map_length, hsum, specMetas, specOffsets, specFile_cons, specDatas_cons,
        SpecGroup.length_bytes,
      List.map_append, RunningSum.starts_append, List.flatten_append, List.length_append,
        List.length_cons,
      List.append_assoc, Nat.add_assoc, Nat.add_comm 1]

theorem length_le_specFile (h : ∀ group ∈ groups, group.Conforms D) :
    groups.length ≤ (specFile D groups).length := by
  induction groups with
  | nil => exact Nat.zero_le _
  | cons group groups ih =>
    have hpos := (h group List.mem_cons_self).membersSize_pos
    have hrest := ih fun g hg => h g (List.mem_cons_of_mem _ hg)
    rw [specFile_cons, List.length_append, List.length_cons, SpecGroup.length_bytes]
    omega

theorem build_specFile_append (h : ∀ group ∈ groups, group.Conforms D) {rest : Bytes}
    (hend : Stops rest) (hsize : (specFile D groups ++ rest).length < 2 ^ 64) (q : Nat) :
    ∃ q', build ⟨specFile D groups ++ rest, q, []⟩ = .ok (specIndex D groups)
      ⟨specFile D groups ++ rest, q', []⟩ := by
  obtain ⟨fuel, hfuel⟩ : ∃ fuel, (specFile D groups ++ rest).length + 1 = groups.length +
      (fuel + 1) := by
    have hle := length_le_specFile h
    exact ⟨(specFile D groups ++ rest).length - groups.length, by rw [List.length_append]; omega⟩
  have hloop := buildLoop_specFile h (show (specFile D groups ++ rest).drop 0 = specFile D groups ++
    rest from rfl) hsize (fuel + 1) ⟨[], [], [], 0, 0, 0⟩
  rw [Nat.zero_add] at hloop
  obtain ⟨q', hstop⟩ := buildLoop_stop
    (show Stops
      ((specFile D groups ++ rest).drop (specFile D groups).length) by rwa [List.drop_left]) fuel
    (groups.foldl (fun acc group => acc.addTable group.entries group.idxZc) ⟨[], [], [], 0, 0, 0⟩)
  refine ⟨q', ?_⟩
  rw [build, Program.bind_ok (Source.seekStart_apply _ _ _), Program.bind_ok (Program.get_apply _)]
  simp only
  rw [hfuel, Program.bind_ok (hloop.trans hstop), foldl_addTable h, Program.pure_apply]
  simp only [List.nil_append, Nat.zero_add, specIndex]

theorem build_specFile (h : ∀ group ∈ groups, group.Conforms D)
    (hsize : (specFile D groups).length < 2 ^ 64) (q : Nat) :
    ∃ q', build ⟨specFile D groups, q, []⟩ = .ok (specIndex D groups) ⟨specFile D groups,
      q', []⟩ := by
  have hbuild := build_specFile_append h stops_nil (by rwa [List.append_nil]) q
  rwa [List.append_nil] at hbuild

end Scanning

end Pgzf
