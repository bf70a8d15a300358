import Mathlib.Data.List.TakeWhile
import Pgzf.Library.SortedSearch
import Pgzf.TableOffsets

/-!
# Looking up a byte in the index

Whatever sizes the tables list, the offsets of an index never decrease, so a byte offset can be
looked up in them by a binary search. Blocks without data make offsets equal; then any of them may
be found.
-/

namespace Pgzf

open PgzfIndex ScannedGroup SortedSearch

variable {file : Bytes} {index : PgzfIndex}

/-- The offsets of an index: one for each block and one for the end, in order, the uncompressed ones
as the sizes of the blocks say. -/
structure OffsetsOrdered (index : PgzfIndex) : Prop where
  length_compressed : index.compressedOffsets.length = index.blockCount + 1
  length_uncompressed : index.uncompressedOffsets.length = index.blockCount + 1
  compressed : index.compressedOffsets.Pairwise (· ≤ ·)
  uncompressed : index.uncompressedOffsets.Pairwise (· ≤ ·)
  first : index.uncompressedOffsets[0]? = some 0
  step : ∀ i m, index.blockMeta i = some m → ∃ x, index.uncompressedOffsets[i]? = some x ∧
    index.uncompressedOffsets[i + 1]? = some (x + m.uncompressedSize.toNat)
  last : index.uncompressedOffsets[index.blockCount]? = some index.totalUncompressed

def EmptyBlockAt (index : PgzfIndex) (offset : Nat) : Prop :=
  ∃ i m, index.blockMeta i = some m ∧ m.uncompressedSize = 0 ∧
    index.uncompressedOffsets[i]? = some offset

def LastMatch (D : Deps) (index : PgzfIndex) (offset : Nat) : Prop :=
  ∀ i, D.binarySearch index.uncompressedOffsets offset = .ok i →
    index.uncompressedOffsets[i + 1]? ≠ some offset

/-- `seek_byte` answers for the offsets up to the end: with an entry and the distance to it, which
is none where the offset is an entry. It is the last entry there is, so that the byte lies in its
block, where no block without data stands or the search finds the last match. -/
structure LooksUp (D : Deps) (index : PgzfIndex) : Prop where
  fails : ∀ offset, (∃ e, index.seekByte D offset = .error e) ↔ index.totalUncompressed < offset
  entry : ∀ offset i skip, index.seekByte D offset = .ok (i, skip) → i ≤ index.blockCount ∧
    ∃ x, index.uncompressedOffsets[i]? = some x ∧ x ≤ offset ∧ skip = offset - x ∧
      (offset ∈ index.uncompressedOffsets → x = offset)
  last : ∀ offset i skip, index.seekByte D offset = .ok (i, skip) → ¬ EmptyBlockAt index offset ∨
    LastMatch D index offset → LastLe index.uncompressedOffsets offset i ∧
      (i ≠ index.blockCount → ∃ m, index.blockMeta i = some m ∧ skip < m.uncompressedSize.toNat)

namespace ScannedGroup

def leading (groups : List ScannedGroup) : List ScannedGroup :=
  groups.takeWhile fun g => g.entries.isEmpty

def members (groups : List ScannedGroup) : Nat := (groups.map fun g => g.zc.toNat).sum

end ScannedGroup

/-! ### The locals of `build` -/

def listedSizes (blocks : List BlockMeta) : List Nat := blocks.map fun m => m.uncompressedSize.toNat

structure ScanOrdered (acc : Scan) : Prop where
  length : acc.compressedOffsets.length = acc.blocks.length
  compressed : (acc.compressedOffsets ++ [acc.cumC]).Pairwise (· ≤ ·)
  uncompressed : acc.uncompressedOffsets = RunningSum.starts 0 (listedSizes acc.blocks)
  cumU : acc.cumU = (listedSizes acc.blocks).sum

theorem listedSizes_mapIdx (count : Nat) (entries : List IndexEntry) :
    listedSizes (entries.mapIdx fun i e =>
      (⟨UInt32.ofNat count, UInt32.ofNat i, e.compressedSize, e.uncompressedSize⟩ : BlockMeta)) =
        entries.map fun e => e.uncompressedSize.toNat := by
  apply List.ext_getElem?
  intro i
  rw [listedSizes, List.getElem?_map, List.getElem?_mapIdx, List.getElem?_map, Option.map_map]
  rfl

/-- A table keeps the order, whatever it lists. -/
theorem ScanOrdered.enter {acc : Scan} (h : ScanOrdered acc) (g : ScannedGroup) :
    ScanOrdered (acc.enter g) := by
  have hsizes : listedSizes (acc.enter g).blocks =
      listedSizes acc.blocks ++ g.entries.map fun e => e.uncompressedSize.toNat := by
    rw [← listedSizes_mapIdx acc.groupCount, listedSizes, listedSizes, listedSizes,
      ← List.map_append]
    rfl
  constructor
  · rw [Scan.enter, Scan.addTable, Scan.addEntries]
    simp only [List.length_append, RunningSum.length_starts, List.length_map,
      List.length_mapIdx, h.length]
  · have hstop : acc.cumC + (g.entries.map fun e => e.compressedSize.toNat).sum ≤
        (acc.enter g).cumC :=
      Nat.le_add_right _ _
    have hall : (acc.enter g).compressedOffsets ++ [(acc.enter g).cumC] = acc.compressedOffsets ++
        (RunningSum.starts acc.cumC (g.entries.map fun e => e.compressedSize.toNat) ++
            [(acc.enter g).cumC]) :=
      List.append_assoc _ _ _
    obtain ⟨hbefore, -, hle⟩ := List.pairwise_append.mp h.compressed
    rw [hall, List.pairwise_append]
    refine ⟨hbefore, RunningSum.pairwise_starts hstop, ?_⟩
    intro x hx y hy
    exact Nat.le_trans (hle x hx _ List.mem_cons_self) (RunningSum.le_of_mem_starts hstop hy)
  · rw [hsizes, RunningSum.starts_append, ← h.uncompressed, Nat.zero_add, ← h.cumU]
    rfl
  · rw [hsizes, List.sum_append, ← h.cumU]
    rfl

theorem scanOrdered_foldl (groups : List ScannedGroup) {acc : Scan} (h : ScanOrdered acc) :
    ScanOrdered (groups.foldl Scan.enter acc) := by
  induction groups generalizing acc with
  | nil => exact h
  | cons g rest ih => exact ih (h.enter g)

theorem scanOrdered_empty : ScanOrdered .empty := ⟨rfl, List.pairwise_singleton _ _, rfl, rfl⟩

theorem ScanOrdered.finish {acc : Scan} (h : ScanOrdered acc) : OffsetsOrdered acc.finish := by
  have hoffsets : acc.finish.uncompressedOffsets =
      RunningSum.starts 0 (listedSizes acc.blocks) ++ [(listedSizes acc.blocks).sum] := by
    rw [Scan.finish, ← h.uncompressed, ← h.cumU]
  have hcount : (listedSizes acc.blocks).length = acc.finish.blockCount := List.length_map _
  constructor
  · rw [Scan.finish, List.length_append, h.length]
    rfl
  · rw [hoffsets, List.length_append, RunningSum.length_starts, hcount]
    rfl
  · exact h.compressed
  · rw [hoffsets]
    exact RunningSum.pairwise_starts (Nat.le_of_eq (Nat.zero_add _))
  · rw [hoffsets]
    exact RunningSum.getElem?_starts_end (Nat.zero_le _)
  · intro i m hm
    have hsize : (listedSizes acc.blocks)[i]? = some m.uncompressedSize.toNat := by
      have hblock : acc.blocks[i]? = some m := hm
      rw [listedSizes, List.getElem?_map, hblock]
      rfl
    have hi : i < (listedSizes acc.blocks).length := (List.getElem?_eq_some_iff.mp hsize).1
    refine ⟨((listedSizes acc.blocks).take i).sum, ?_, ?_⟩
    · rw [hoffsets]
      exact RunningSum.getElem?_starts_end (Nat.le_of_lt hi)
    · rw [hoffsets, RunningSum.getElem?_starts_end hi, List.take_add_one, hsize, List.sum_append]
      rfl
  · rw [hoffsets, ← hcount, RunningSum.getElem?_starts_end (Nat.le_refl _), List.take_length,
      totalUncompressed, hoffsets, List.getLast?_concat]
    rfl

/-! ### The first block -/

theorem cumC_of_empty_tables {groups : List ScannedGroup} (h : ∀ g ∈ groups, g.entries = [])
    (acc : Scan) :
    (groups.foldl Scan.enter acc).cumC = acc.cumC + members groups ∧
      (groups.foldl Scan.enter acc).compressedOffsets = acc.compressedOffsets := by
  induction groups generalizing acc with
  | nil => exact ⟨rfl, rfl⟩
  | cons g rest ih =>
    obtain ⟨hsum, hoffsets⟩ := ih (fun g' hg' => h g' (List.mem_cons_of_mem _ hg')) (acc.enter g)
    have hempty := h g List.mem_cons_self
    have hcumC : (acc.enter g).cumC = acc.cumC + g.zc.toNat := by
      rw [Scan.enter, Scan.addTable, Scan.addEntries, hempty]
      rfl
    have hsame : (acc.enter g).compressedOffsets = acc.compressedOffsets := by
      rw [Scan.enter, Scan.addTable, Scan.addEntries, hempty]
      exact List.append_nil _
    constructor
    · rw [List.foldl_cons, hsum, hcumC, members, members, List.map_cons, List.sum_cons,
        Nat.add_assoc]
    · rw [List.foldl_cons, hoffsets, hsame]

theorem mem_leading {groups : List ScannedGroup} {g : ScannedGroup} (hg : g ∈ leading groups) :
    g.entries = [] :=
  List.isEmpty_iff.mp (List.mem_takeWhile_imp (p := fun g : ScannedGroup => g.entries.isEmpty) hg)

theorem blocksOf_of_empty_tables {groups : List ScannedGroup} (h : ∀ g ∈ groups, g.entries = []) :
    blocksOf groups = 0 := by
  apply List.sum_eq_zero
  intro n hn
  obtain ⟨g, hg, rfl⟩ := List.mem_map.mp hn
  rw [h g hg, List.length_nil]

/-- The first block is stored behind the index members of the groups that have no blocks. -/
theorem first_compressed (groups : List ScannedGroup) :
    (groups.foldl Scan.enter .empty).finish.compressedOffset 0 =
      some (members (leading groups)) := by
  have hsplit : leading groups ++ groups.dropWhile (fun g => g.entries.isEmpty) = groups :=
    List.takeWhile_append_dropWhile
  obtain ⟨hsum, hoffsets⟩ := @cumC_of_empty_tables (leading groups) (fun _ => mem_leading) .empty
  have hstart : Scan.empty.cumC + members (leading groups) = members (leading groups) :=
    Nat.zero_add _
  rw [hstart] at hsum
  cases hrest : groups.dropWhile (fun g => g.entries.isEmpty) with
  | nil =>
    rw [hrest, List.append_nil] at hsplit
    rw [compressedOffset, Scan.finish, ← hsum, ← hsplit, hsplit]
    rw [hsplit] at hoffsets
    rw [hoffsets, hsplit]
    rfl
  | cons g after =>
    have hne : g.entries ≠ [] := by
      intro hempty
      have hhead : g.entries.isEmpty = false := by
        have hdrop := List.head?_dropWhile_not (fun g => g.entries.isEmpty) groups
        rw [hrest] at hdrop
        simpa using hdrop
      rw [hempty] at hhead
      exact absurd hhead (by simp)
    rw [hrest] at hsplit
    have hfirst := @Scan.first_offset (leading groups) after g hne
    rw [hsplit, blocksOf_of_empty_tables fun _ => mem_leading] at hfirst
    rw [hfirst, hsum]

/-! ### The lookup -/

variable {D : Deps}

theorem answer_binarySearch {xs : List Nat} (hsorted : xs.Pairwise (· ≤ ·)) (offset : Nat) :
    Answer xs offset (D.binarySearch xs offset) := by
  cases hanswer : D.binarySearch xs offset with
  | ok i => exact .found (D.binarySearch_ok xs offset i hsorted hanswer)
  | error i =>
    obtain ⟨hlen, hbelow, habove⟩ := D.binarySearch_error xs offset i hsorted hanswer
    exact .missing hlen hbelow habove

theorem seekByte_of_gt {offset : Nat} (h : index.totalUncompressed < offset) :
    index.seekByte D offset = .error (.seekBeyondEnd offset index.totalUncompressed) := if_pos h

theorem seekByte_of_le {offset : Nat} (h : offset ≤ index.totalUncompressed) :
    index.seekByte D offset = .ok (pick (D.binarySearch index.uncompressedOffsets offset),
      offset - index.uncompressedOffsets.getD
        (pick (D.binarySearch index.uncompressedOffsets offset)) 0) := by
  rw [seekByte, if_neg (Nat.not_lt.mpr h)]
  cases D.binarySearch index.uncompressedOffsets offset with
  | ok i => rfl
  | error i =>
    cases i with
    | zero => rfl
    | succ i => rfl

theorem of_seekByte_ok {offset i skip : Nat} (h : index.seekByte D offset = .ok (i, skip)) :
    offset ≤ index.totalUncompressed ∧ i = pick (D.binarySearch index.uncompressedOffsets offset) ∧
      skip = offset - index.uncompressedOffsets.getD i 0 := by
  by_cases hbeyond : index.totalUncompressed < offset
  · rw [seekByte_of_gt hbeyond] at h
    exact absurd h (by simp)
  · have hle := Nat.not_lt.mp hbeyond
    rw [seekByte_of_le hle] at h
    obtain ⟨rfl, rfl⟩ := Prod.mk.inj (Except.ok.inj h)
    exact ⟨hle, rfl, rfl⟩

namespace OffsetsOrdered

theorem exists_meta {i : Nat} (hi : i < index.blockCount) : ∃ m, index.blockMeta i = some m :=
  ⟨index.blocks[i], List.getElem?_eq_getElem hi⟩

theorem emptyBlockAt (h : OffsetsOrdered index) {offset i : Nat}
    (hfirst : index.uncompressedOffsets[i]? = some offset)
    (hnext : index.uncompressedOffsets[i + 1]? = some offset) : EmptyBlockAt index offset := by
  have hi : i < index.blockCount := by
    have hlen := (List.getElem?_eq_some_iff.mp hnext).1
    rw [h.length_uncompressed] at hlen
    omega
  obtain ⟨m, hm⟩ := exists_meta hi
  obtain ⟨x, hx, hx'⟩ := h.step i m hm
  obtain rfl := Option.some.inj (hfirst.symm.trans hx)
  have hsize : offset = offset + m.uncompressedSize.toNat := Option.some.inj (hnext.symm.trans hx')
  have hzero : m.uncompressedSize.toNat = 0 := by omega
  exact ⟨i, m, hm, UInt32.toNat_inj.mp hzero, hfirst⟩

theorem looksUp (h : OffsetsOrdered index) (D : Deps) : LooksUp D index := by
  constructor
  · intro offset
    constructor
    · rintro ⟨e, herror⟩
      by_contra hle
      rw [seekByte_of_le (Nat.not_lt.mp hle)] at herror
      exact absurd herror (by simp)
    · exact fun hbeyond => ⟨_, seekByte_of_gt hbeyond⟩
  · intro offset i skip hok
    obtain ⟨-, rfl, rfl⟩ := of_seekByte_ok hok
    obtain ⟨x, hx, hle⟩ :=
      (answer_binarySearch h.uncompressed offset).pick_le h.first (Nat.zero_le _)
    have hlen := (List.getElem?_eq_some_iff.mp hx).1
    rw [h.length_uncompressed] at hlen
    refine ⟨Nat.le_of_lt_succ hlen, x, hx, hle, ?_, fun hmem => ?_⟩
    · rw [List.getD_eq_getElem?_getD, hx, Option.getD_some]
    · obtain ⟨j, hj⟩ := List.getElem?_of_mem hmem
      exact Option.some.inj
        (hx.symm.trans ((answer_binarySearch h.uncompressed offset).pick_match hj))
  · intro offset i skip hok hcase
    obtain ⟨hend, rfl, rfl⟩ := of_seekByte_ok hok
    have honce : LastMatch D index offset := hcase.elim (fun hempty i hi hnext =>
      hempty (h.emptyBlockAt (D.binarySearch_ok _ _ _ h.uncompressed hi) hnext)) id
    have hlast := (answer_binarySearch (D := D) h.uncompressed offset).lastLe h.uncompressed h.first
      (Nat.zero_le _) honce
    refine ⟨hlast, ?_⟩
    obtain ⟨x, hx, hle⟩ := hlast.le
    have hlen := (List.getElem?_eq_some_iff.mp hx).1
    rw [h.length_uncompressed] at hlen
    intro hne
    obtain ⟨m, hm⟩ := @exists_meta index _ (Nat.lt_of_le_of_ne (Nat.le_of_lt_succ hlen) hne)
    obtain ⟨x', hx', hnext⟩ := h.step _ m hm
    obtain rfl := Option.some.inj (hx.symm.trans hx')
    have hbehind := hlast.lt _ _ (Nat.lt_succ_self _) hnext
    refine ⟨m, hm, ?_⟩
    rw [List.getD_eq_getElem?_getD, hx, Option.getD_some]
    omega

end OffsetsOrdered

variable (D) in
/-- Any index `build` returns, from whatever bytes. -/
theorem byte_lookup {q : Nat} {s : Source} (hbuild : buildU64 ⟨file, q, []⟩ = .ok index s) :
    OffsetsOrdered index ∧ LooksUp D index ∧ ∃ groups stop acc, Turns file groups stop acc ∧
      (∃ s', turnU64 acc ⟨file, stop, []⟩ = .ok none s') ∧
        index.compressedOffset 0 = some (members (leading groups)) := by
  obtain ⟨groups, stop, acc, hturns, hlast, rfl⟩ := Turns.of_buildU64_ok hbuild
  have hscan := scanOrdered_foldl groups scanOrdered_empty
  rw [← hturns.turned.entered] at hscan
  have hfirst := first_compressed groups
  rw [← hturns.turned.entered] at hfirst
  exact ⟨hscan.finish, hscan.finish.looksUp D, groups, stop, acc, hturns, hlast, hfirst⟩

namespace Stored

def emptyEntries : Bytes :=
  begHeader 32 32 ++ idxHeader 24 [] ++ (begHeader 32 32 ++ idxHeader 48 [⟨32, 2⟩, ⟨0, 0⟩, ⟨0, 2⟩])

theorem outcome_emptyEntries : Program.outcome (buildU64 ⟨emptyEntries, 0, []⟩) =
    .ok ⟨[⟨1, 0, 32, 2⟩, ⟨1, 1, 0, 0⟩, ⟨1, 2, 0, 2⟩], [24, 56, 56, 104], [0, 2, 2, 4], 2⟩ := by
  decide +kernel

end Stored

/-- The search that goes by halves finds the block with data also where one without data begins. -/
theorem byte_lookup_sample :
    ∃ index s, buildU64 ⟨Stored.emptyEntries, 0, []⟩ = .ok index s ∧ OffsetsOrdered index ∧
    index.seekByte Stored.deps 2 = .ok (2, 0) ∧ EmptyBlockAt index 2 ∧
      ∀ offset i skip, index.seekByte Stored.deps offset = .ok (i, skip) →
        LastLe index.uncompressedOffsets offset i := by
  obtain ⟨s, hbuild⟩ := Program.exists_of_outcome Stored.outcome_emptyEntries
  obtain ⟨hordered, hlooks, -⟩ := byte_lookup Stored.deps hbuild
  refine ⟨_, s, hbuild, hordered, by decide +kernel, ⟨1, ⟨1, 1, 0, 0⟩, rfl, rfl, rfl⟩,
    fun offset i skip hok => ?_⟩
  exact (hlooks.last offset i skip hok (.inr fun j hj => search_last hordered.uncompressed hj)).1

theorem first_offset_not_zero : ∃ index s, buildU64 ⟨Stored.emptyEntries, 0, []⟩ = .ok index s ∧
    index.compressedOffset 0 = some 24 := by
  obtain ⟨s, hbuild⟩ := Program.exists_of_outcome Stored.outcome_emptyEntries
  exact ⟨_, s, hbuild, rfl⟩

end Pgzf
