import Pgzf.Members
import Pgzf.Library.RunningSum

/-!
# Groups

A group is a list of blocks. Its bytes are the members of the blocks, the first of which carries the
length of the data members, and an index member with one entry for each of them. A file is one group
after another. `Holds` says what the raw reader finds from a place on, and `Placed` that every block
of a file can be found at the offset listed for it.
-/

namespace Pgzf

open PgzfReader

variable (D : Deps) (level : Nat)

/-! ### The bytes of a group -/

def blockEntry (headerSize : Nat) (data : Bytes) : IndexEntry :=
  ⟨memberZc D level headerSize data, UInt32.ofNat data.length⟩

def groupEntries : List Bytes → List IndexEntry
  | [] => []
  | data :: rest =>
    blockEntry D level begHeaderSize data :: rest.map (blockEntry D level datHeaderSize)

def groupMembers (gc : UInt64) : List Bytes → List Bytes
  | [] => []
  | data :: rest => begMember D level gc data :: rest.map (datMember D level)

def groupGc (blocks : List Bytes) : UInt64 :=
  UInt64.ofNat ((groupEntries D level blocks).map fun e => e.compressedSize.toNat).sum

def groupWith (gc : UInt64) (blocks : List Bytes) : Bytes :=
  (groupMembers D level gc blocks).flatten ++ idxMember D level (groupEntries D level blocks)

def groupBytes (blocks : List Bytes) : Bytes := groupWith D level (groupGc D level blocks) blocks

def fileBytes (groups : List (List Bytes)) : Bytes := groups.flatMap (groupBytes D level)

/-- A group within the format's limits, with members of at most `limit` bytes. -/
structure GroupFits (limit : Nat) (blocks : List Bytes) : Prop where
  ne_nil : blocks ≠ []
  length_le : blocks.length ≤ 8190
  data : ∀ data ∈ blocks, data ≠ [] ∧ data.length < 2 ^ 32
  member : ∀ member ∈ groupMembers D level 0 blocks, member.length ≤ limit
  idx : idxSize D level blocks.length ≤ limit

def GroupInflates (blocks : List Bytes) : Prop :=
  ∀ data ∈ blocks, D.Inflates (deflated D level data) data

/-! ### Sizes -/

@[simp] theorem length_groupEntries (blocks : List Bytes) :
    (groupEntries D level blocks).length = blocks.length := by
  cases blocks <;> simp [groupEntries]

@[simp] theorem length_groupMembers (gc : UInt64) (blocks : List Bytes) :
    (groupMembers D level gc blocks).length = blocks.length := by
  cases blocks <;> simp [groupMembers]

theorem map_length_groupMembers (gc gc' : UInt64) (blocks : List Bytes) :
    (groupMembers D level gc blocks).map List.length =
      (groupMembers D level gc' blocks).map List.length := by
  cases blocks <;> simp [groupMembers]

theorem length_groupWith (gc : UInt64) (blocks : List Bytes) :
    (groupWith D level gc blocks).length =
      (groupMembers D level 0 blocks).flatten.length + idxSize D level blocks.length := by
  rw [groupWith, List.length_append, length_idxMember, length_groupEntries,
    ← RunningSum.sum_map_length, ← RunningSum.sum_map_length, map_length_groupMembers D level gc 0]

theorem fileBytes_cons (blocks : List Bytes) (groups : List (List Bytes)) :
    fileBytes D level (blocks :: groups) = groupBytes D level blocks ++
      fileBytes D level groups := by
  rw [fileBytes, List.flatMap_cons, fileBytes]

theorem fileBytes_append (groups groups' : List (List Bytes)) :
    fileBytes D level (groups ++ groups') = fileBytes D level groups ++
      fileBytes D level groups' := by
  rw [fileBytes, List.flatMap_append, fileBytes, fileBytes]

variable {D level}

/-- The entries list the sizes of the members, where these fit into their fields. -/
theorem compressedSizes_of_lt {blocks : List Bytes}
    (h : ∀ member ∈ groupMembers D level 0 blocks, member.length < 2 ^ 32) :
    (groupEntries D level blocks).map (fun e => e.compressedSize.toNat) =
      (groupMembers D level 0 blocks).map List.length := by
  cases blocks with
  | nil => rfl
  | cons first rest =>
    have hfirst := h _ List.mem_cons_self
    rw [length_begMember] at hfirst
    have hrest : ∀ data ∈ rest, memberSize D level datHeaderSize data < 2 ^ 32 := by
      intro data hdata
      have hmem := h (datMember D level data) (List.mem_cons_of_mem _ (List.mem_map_of_mem hdata))
      rwa [length_datMember] at hmem
    simp only [groupEntries, groupMembers, List.map_cons, List.map_map, length_begMember,
      blockEntry]
    rw [memberZc_toNat hfirst]
    congr 1
    refine List.map_congr_left fun data hdata => ?_
    simp only [Function.comp, length_datMember]
    exact memberZc_toNat (hrest data hdata)

theorem compressedSizes_eq {limit : Nat} {blocks : List Bytes} (h : GroupFits D level limit blocks)
    (hlimit : limit < 2 ^ 32) :
    (groupEntries D level blocks).map (fun e => e.compressedSize.toNat) =
      (groupMembers D level 0 blocks).map List.length :=
  compressedSizes_of_lt fun member hmember => Nat.lt_of_le_of_lt (h.member member hmember) hlimit

theorem uncompressedSizes_of_lt {blocks : List Bytes} (h : ∀ data ∈ blocks, data.length < 2 ^ 32) :
    (groupEntries D level blocks).map (fun e => e.uncompressedSize.toNat) =
      blocks.map List.length := by
  have hsize : ∀ data ∈ blocks, (UInt32.ofNat data.length).toNat = data.length := fun data hdata =>
    UInt32.toNat_ofNat_of_lt' (h data hdata)
  cases blocks with
  | nil => rfl
  | cons first rest =>
    simp only [groupEntries, List.map_cons, List.map_map, blockEntry,
      hsize first List.mem_cons_self]
    congr 1
    exact List.map_congr_left fun data hdata => hsize data (List.mem_cons_of_mem _ hdata)

theorem uncompressedSizes_eq {limit : Nat} {blocks : List Bytes}
    (h : GroupFits D level limit blocks) :
    (groupEntries D level blocks).map (fun e => e.uncompressedSize.toNat) =
      blocks.map List.length :=
  uncompressedSizes_of_lt fun data hdata => (h.data data hdata).2

theorem sum_compressedSizes {limit : Nat} {blocks : List Bytes} (h : GroupFits D level limit blocks)
    (hlimit : limit < 2 ^ 32) :
    ((groupEntries D level blocks).map fun e => e.compressedSize.toNat).sum =
      (groupMembers D level 0 blocks).flatten.length := by
  rw [compressedSizes_eq h hlimit, RunningSum.sum_map_length]

theorem groupGc_toNat {limit : Nat} {blocks : List Bytes} (h : GroupFits D level limit blocks)
    (hlimit : limit < 2 ^ 32) :
    (groupGc D level blocks).toNat = (groupMembers D level 0 blocks).flatten.length := by
  have hsum := RunningSum.length_flatten_le h.member
  rw [length_groupMembers] at hsum
  have hbound : blocks.length * limit ≤ 8190 * 2 ^ 32 := Nat.mul_le_mul h.length_le (by omega)
  rw [groupGc, sum_compressedSizes h hlimit]
  exact UInt64.toNat_ofNat_of_lt' (by rw [UInt64.size]; omega)

theorem groupGc_ne_zero {limit : Nat} {blocks : List Bytes} (h : GroupFits D level limit blocks)
    (hlimit : limit < 2 ^ 32) : groupGc D level blocks ≠ 0 := by
  intro hzero
  have hgc := groupGc_toNat h hlimit
  rw [hzero] at hgc
  obtain ⟨first, rest, rfl⟩ := List.exists_cons_of_ne_nil h.ne_nil
  simp only [groupMembers, List.flatten_cons, List.length_append, length_begMember, memberSize,
    begHeaderSize, UInt64.toNat_zero] at hgc
  omega

/-! ### What the raw reader finds -/

variable (D) in
/-- A member that the raw reader accepts as a data member with the given block. -/
def DataMember (raw data : Bytes) : Prop :=
  ∃ headerSize ty, Framed raw headerSize ty ∧ ty ≠ .idx ∧
    decompressRawBlockWith D raw headerSize = .ok data

variable (D) in
/-- From the front of these bytes on, with index members
passed over, the raw reader finds these blocks. -/
inductive Holds : Bytes → List Bytes → Prop
  | nil (bytes : Bytes) : Holds bytes []
  | data {raw rest data : Bytes} {blocks : List Bytes} :
    DataMember D raw data → Holds rest blocks → Holds (raw ++ rest) (data :: blocks)
  | idx {raw rest : Bytes} {headerSize : Nat} {blocks : List Bytes} :
    Framed raw headerSize .idx → Holds rest blocks → Holds (raw ++ rest) blocks

variable (D) in
/-- At each offset the raw reader finds the block it is listed for, and all later ones. -/
def Placed (file : Bytes) : List Nat → List Bytes → Prop
  | [], [] => True
  | offset :: offsets, data :: blocks =>
    Holds D (file.drop offset) (data :: blocks) ∧ Placed file offsets blocks
  | _, _ => False

theorem Placed.length_eq {file : Bytes} {offsets : List Nat} {blocks : List Bytes}
    (h : Placed D file offsets blocks) : offsets.length = blocks.length := by
  induction offsets generalizing blocks with
  | nil => cases blocks with
    | nil => rfl
    | cons data blocks => exact h.elim
  | cons offset offsets ih => cases blocks with
    | nil => exact h.elim
    | cons data blocks => rw [List.length_cons, ih h.2, List.length_cons]

theorem Placed.get {file : Bytes} {offsets : List Nat} {blocks : List Bytes}
    (h : Placed D file offsets blocks) {i : Nat} (hi : i < blocks.length) :
    ∃ offset, offsets[i]? = some offset ∧ Holds D (file.drop offset) (blocks.drop i) := by
  induction offsets generalizing blocks i with
  | nil => cases blocks with
    | nil => exact absurd hi (Nat.not_lt_zero i)
    | cons data blocks => exact h.elim
  | cons offset offsets ih => cases blocks with
    | nil => exact h.elim
    | cons data blocks => cases i with
      | zero => exact ⟨offset, rfl, h.1⟩
      | succ i => exact ih h.2 (by simpa using hi)

/-- Data members one after another hold their blocks, and each can be found where it starts. -/
theorem placed_members {file : Bytes} {members datas : List Bytes}
    (hmembers : List.Forall₂ (DataMember D) members datas) {start : Nat} {tail : Bytes}
    {offsets : List Nat} {blocks : List Bytes} (hfile : file.drop start = members.flatten ++ tail)
    (htail : Holds D tail blocks) (hplaced : Placed D file offsets blocks) :
    Holds D (file.drop start) (datas ++ blocks) ∧
      Placed D file (RunningSum.starts start (members.map List.length) ++ offsets)
        (datas ++ blocks) := by
  induction hmembers generalizing start with
  | nil =>
    rw [List.flatten_nil, List.nil_append] at hfile
    rw [hfile]
    exact ⟨htail, hplaced⟩
  | @cons member data members datas hmember _ ih =>
    rw [List.flatten_cons, List.append_assoc] at hfile
    have hnext : file.drop (start + member.length) = members.flatten ++ tail := by
      rw [← List.drop_drop, hfile, List.drop_left]
    obtain ⟨hholds, hrest⟩ := ih hnext
    have hhere : Holds D (file.drop start) (data :: (datas ++ blocks)) := by
      rw [hfile, ← hnext]
      exact .data hmember hholds
    exact ⟨hhere, hhere, hrest⟩

theorem dataMember_begMember {gc : UInt64} {data : Bytes}
    (hsize : memberSize D level begHeaderSize data ≤ 2 ^ 30)
    (hinflates : D.Inflates (deflated D level data) data) (hne : data ≠ [])
    (hlen : data.length < 2 ^ 32) :
    DataMember D (begMember D level gc data) data :=
  ⟨begHeaderSize, .beg, framed_begMember hsize, by simp, decompress_begMember hinflates hne hlen⟩

theorem dataMember_datMember {data : Bytes} (hsize : memberSize D level datHeaderSize data ≤ 2 ^ 30)
    (hinflates : D.Inflates (deflated D level data) data) (hne : data ≠ [])
    (hlen : data.length < 2 ^ 32) :
    DataMember D (datMember D level data) data :=
  ⟨datHeaderSize, .dat, framed_datMember hsize, by simp, decompress_datMember hinflates hne hlen⟩

theorem dataMember_groupMembers (gc : UInt64) {blocks : List Bytes}
    (h : GroupFits D level (2 ^ 30) blocks) (hinflates : GroupInflates D level blocks) :
    List.Forall₂ (DataMember D) (groupMembers D level gc blocks) blocks := by
  cases blocks with
  | nil => exact .nil
  | cons first rest =>
    have hfirst := h.member _ List.mem_cons_self
    rw [length_begMember] at hfirst
    obtain ⟨hne, hlen⟩ := h.data first List.mem_cons_self
    refine .cons (dataMember_begMember hfirst (hinflates first List.mem_cons_self) hne hlen) ?_
    rw [List.forall₂_map_left_iff, List.forall₂_same]
    intro data hdata
    have hsize :=
      h.member (datMember D level data) (List.mem_cons_of_mem _ (List.mem_map_of_mem hdata))
    rw [length_datMember] at hsize
    obtain ⟨hne, hlen⟩ := h.data data (List.mem_cons_of_mem _ hdata)
    exact dataMember_datMember hsize (hinflates data (List.mem_cons_of_mem _ hdata)) hne hlen

variable (D level) in
def memberOffsets : Nat → List (List Bytes) → List Nat
  | _, [] => []
  | start, blocks :: groups =>
    RunningSum.starts start ((groupMembers D level 0 blocks).map List.length) ++
      memberOffsets (start + (groupBytes D level blocks).length) groups

theorem memberOffsets_append (start : Nat) (groups groups' : List (List Bytes)) :
    memberOffsets D level start (groups ++ groups') = memberOffsets D level start groups ++
      memberOffsets D level (start + (fileBytes D level groups).length) groups' := by
  induction groups generalizing start with
  | nil => rfl
  | cons blocks groups ih =>
    rw [List.cons_append, memberOffsets, ih, memberOffsets, fileBytes_cons, List.length_append,
      List.append_assoc, Nat.add_assoc]

/-- Every block of a file of whole groups can be found
where it stands, and the blocks behind them as before. -/
theorem placed_fileBytes {groups : List (List Bytes)}
    (hfits : ∀ blocks ∈ groups, GroupFits D level (2 ^ 30) blocks)
    (hinflates : ∀ blocks ∈ groups, GroupInflates D level blocks) {file rest : Bytes} {start : Nat}
    (hfile : file.drop start = fileBytes D level groups ++ rest) {offsets : List Nat}
    {later : List Bytes} (hlater : Holds D rest later) (hoffsets : Placed D file offsets later) :
    Holds D (file.drop start) (groups.flatten ++ later) ∧
      Placed D file (memberOffsets D level start groups ++ offsets) (groups.flatten ++ later) := by
  induction groups generalizing start with
  | nil =>
    rw [hfile]
    exact ⟨hlater, hoffsets⟩
  | cons blocks groups ih =>
    have hgroup := hfits blocks List.mem_cons_self
    rw [fileBytes_cons, groupBytes, groupWith, List.append_assoc, List.append_assoc] at hfile
    have hnext : file.drop (start + (groupBytes D level blocks).length) =
        fileBytes D level groups ++ rest := by
      rw [groupBytes, groupWith, ← List.drop_drop, hfile, ← List.append_assoc, List.drop_left]
    obtain ⟨hholds, hplaced⟩ := ih (fun b hb => hfits b (List.mem_cons_of_mem _ hb))
      (fun b hb => hinflates b (List.mem_cons_of_mem _ hb)) hnext
    have hidx : Holds D (idxMember D level (groupEntries D level blocks) ++
        (fileBytes D level groups ++ rest)) (groups.flatten ++ later) := by
      rw [hnext] at hholds
      refine .idx (framed_idxMember ?_ ?_) hholds
      · rw [length_groupEntries]
        exact hgroup.length_le
      · rw [length_groupEntries]
        exact hgroup.idx
    have hmembers :=
      dataMember_groupMembers (groupGc D level blocks) hgroup (hinflates blocks List.mem_cons_self)
    have hall := placed_members hmembers hfile hidx hplaced
    rw [map_length_groupMembers D level _ 0] at hall
    rw [List.flatten_cons, memberOffsets, List.append_assoc, List.append_assoc]
    exact hall

end Pgzf
