import Pgzf.Cached
import Pgzf.Library.BlockCursor
import Pgzf.Scan

/-!
# Fetching a batch

What one refill does, on a file that holds the blocks its index lists: phase 1 looks every block of
the batch up, phase 2 reads the missing ones range by range, phase 3 puts both together in order.
The queue then is the batch, whatever part of it was cached.
-/

namespace Pgzf

open PgzfReader

variable {D : Deps}

/-! ### Ranges -/

def rangeIndices (range : Nat × Nat) : List Nat := List.range' range.1 (range.2 - range.1)

theorem groupContiguousLoop_indices (rest : List Nat) {start prev : Nat} (h : start ≤ prev) :
    (groupContiguousLoop rest start prev).flatMap rangeIndices = List.range' start
      (prev + 1 - start) ++ rest := by
  induction rest generalizing start prev with
  | nil => simp [groupContiguousLoop, rangeIndices]
  | cons idx rest ih =>
    rw [groupContiguousLoop]
    split
    · rename_i hnext
      subst hnext
      rw [ih (by omega), show prev + 1 + 1 - start = (prev + 1 - start) + 1 by omega,
        List.range'_concat, Nat.one_mul,
        show start + (prev + 1 - start) = prev + 1 by omega, List.append_assoc]
      rfl
    · rw [List.flatMap_cons, ih (Nat.le_refl _), rangeIndices, Nat.add_sub_cancel_left]
      rfl

theorem groupContiguous_indices (indices : List Nat) :
    (groupContiguous indices).flatMap rangeIndices = indices := by
  cases indices with
  | nil => rfl
  | cons first rest =>
    rw [groupContiguous, groupContiguousLoop_indices rest (Nat.le_refl _), Nat.add_sub_cancel_left]
    rfl

theorem groupContiguousLoop_lt {rest : List Nat} {start prev : Nat} (h : start ≤ prev) :
    ∀ range ∈ groupContiguousLoop rest start prev, range.1 < range.2 := by
  induction rest generalizing start prev with
  | nil =>
    intro range hrange
    rw [List.mem_singleton.mp hrange]
    exact Nat.lt_succ_of_le h
  | cons idx rest ih =>
    intro range hrange
    rw [groupContiguousLoop] at hrange
    split at hrange
    · exact ih (by omega) range hrange
    · rcases List.mem_cons.mp hrange with rfl | hrange
      · exact Nat.lt_succ_of_le h
      · exact ih (Nat.le_refl _) range hrange

theorem groupContiguous_lt {indices : List Nat} {range : Nat × Nat}
    (h : range ∈ groupContiguous indices) :
    range.1 < range.2 := by
  cases indices with
  | nil => exact absurd h List.not_mem_nil
  | cons first rest => exact groupContiguousLoop_lt (Nat.le_refl _) range h

theorem groupContiguousLoop_ne_nil (rest : List Nat) (start prev : Nat) :
    groupContiguousLoop rest start prev ≠ [] := by
  induction rest generalizing start prev with
  | nil => exact List.cons_ne_nil _ _
  | cons idx rest ih =>
    rw [groupContiguousLoop]
    split
    · exact ih _ _
    · exact List.cons_ne_nil _ _

theorem groupContiguous_eq_nil_iff (indices : List Nat) :
    groupContiguous indices = [] ↔ indices = [] := by
  cases indices with
  | nil => exact iff_of_true rfl rfl
  | cons first rest =>
    exact iff_of_false (groupContiguousLoop_ne_nil rest first first) (List.cons_ne_nil first rest)

theorem groupContiguousLoop_end (rest : List Nat) (start prev : Nat) :
    (groupContiguousLoop rest start prev).getLast?.map Prod.snd =
      some ((rest.getLast?.getD prev) + 1) := by
  induction rest generalizing start prev with
  | nil => rfl
  | cons idx rest ih =>
    have hlast : (idx :: rest).getLast?.getD prev = rest.getLast?.getD idx := by
      cases rest with
      | nil => rfl
      | cons j rest => simp [List.getLast?_eq_some_getLast]
    rw [groupContiguousLoop, hlast]
    split
    · exact ih _ _
    · obtain ⟨range, ranges, hranges⟩ :=
        List.exists_cons_of_ne_nil (groupContiguousLoop_ne_nil rest idx idx)
      have := ih idx idx
      rw [hranges] at this ⊢
      rwa [List.getLast?_cons_cons]

theorem groupContiguous_end {indices : List Nat} {last : Nat} (h : indices.getLast? = some last) :
    (groupContiguous indices).getLast?.map Prod.snd = some (last + 1) := by
  cases indices with
  | nil => exact absurd h (by simp)
  | cons first rest =>
    rw [groupContiguous, groupContiguousLoop_end]
    cases rest with
    | nil => simpa using h
    | cons j rest =>
      rw [List.getLast?_cons_cons] at h
      rw [h]
      rfl

/-! ### Phase 2 -/

def numbered (blocks : List Bytes) (indices : List Nat) : List (Nat × Bytes) :=
  indices.map fun i => (i, blocks.getD i [])

theorem numbered_append (blocks : List Bytes) (is js : List Nat) :
    numbered blocks (is ++ js) = numbered blocks is ++ numbered blocks js := List.map_append

theorem decompressAll_cons {entry : Nat × Bytes × Nat} {rest : List (Nat × Bytes × Nat)}
    {data : Bytes} {out : List (Nat × Bytes)}
    (hentry : decompressRawBlockWith D entry.2.1 entry.2.2 = .ok data)
    (hrest : decompressAll D rest = .ok out) :
    decompressAll D (entry :: rest) = .ok ((entry.1, data) :: out) := by
  obtain ⟨blockIdx, raw, headerSize⟩ := entry
  rw [decompressAll] at hrest
  rw [decompressAll, List.mapM_cons, hrest]
  simp only [hentry]
  rfl

theorem of_decompressAll_cons {i headerSize : Nat} {raw : Bytes} {rest : List (Nat × Bytes × Nat)}
    {out : List (Nat × Bytes)} (h : decompressAll D ((i, raw, headerSize) :: rest) = .ok out) :
    ∃ data others,
      decompressRawBlockWith D raw headerSize = .ok data ∧ decompressAll D rest = .ok others ∧
        out = (i, data) :: others := by
  rw [decompressAll, List.mapM_cons] at h
  cases hdata : decompressRawBlockWith D raw headerSize with
  | error e =>
    simp only [hdata] at h
    exact absurd h (by simp [bind, Except.bind])
  | ok data =>
    simp only [hdata] at h
    cases hrest : decompressAll D rest with
    | error e =>
      rw [decompressAll] at hrest
      rw [hrest] at h
      exact absurd h (by simp [bind, Except.bind])
    | ok others =>
      rw [decompressAll] at hrest
      rw [hrest] at h
      exact ⟨data, others, rfl, rfl, (Except.ok.inj h).symm⟩

theorem decompressAll_append {xs ys : List (Nat × Bytes × Nat)} {xs' ys' : List (Nat × Bytes)}
    (hxs : decompressAll D xs = .ok xs') (hys : decompressAll D ys = .ok ys') :
    decompressAll D (xs ++ ys) = .ok (xs' ++ ys') := by
  rw [decompressAll] at hxs hys
  rw [decompressAll, List.mapM_append, hxs, hys]
  rfl

theorem Framed.length_pos {raw : Bytes} {headerSize : Nat} {ty : BlockType}
    (h : Framed raw headerSize ty) :
    0 < raw.length := by
  obtain ⟨base, xlen, extra, body, hraw, hbase, -⟩ := h
  rw [hraw, List.length_append, hbase, gzipFixedHeaderSize]
  omega

theorem readRange_zero {file : Bytes} {p : Nat} {r : PgzfReader D} (hin : r.inner = ⟨file, p, []⟩)
    (fuel : Nat) (allRaw : List (Nat × Bytes × Nat)) :
    readRange (fuel + 1) 0 allRaw r = .ok (allRaw ++ [], false) { r with
      inner := ⟨file, p, []⟩
      nextBlockIndex := r.nextBlockIndex + 0 } := by
  rw [readRange, if_pos rfl, Program.pure_apply, List.append_nil, ← hin]
  rfl

/-- Where the source stands at the block the reader counts next, a range is read as the blocks that
follow, and index members are passed over. -/
theorem readRange_holds {bytes : Bytes} {later : List Bytes} (h : Holds D bytes later)
    {file : Bytes} {p : Nat} {r : PgzfReader D} {blocks : List Bytes}
    (hin : r.inner = ⟨file, p, []⟩) (hfile : file.drop p = bytes)
    (hblocks : blocks.drop r.nextBlockIndex = later) {fuel count : Nat}
    (hcount : count ≤ later.length) (hfuel : bytes.length < fuel)
    (allRaw : List (Nat × Bytes × Nat)) :
    ∃ raws q, readRange fuel count allRaw r = .ok (allRaw ++ raws, false) { r with
        inner := ⟨file, q, []⟩
        nextBlockIndex := r.nextBlockIndex + count } ∧
      decompressAll D raws = .ok (numbered blocks (List.range' r.nextBlockIndex count)) := by
  induction h generalizing p r fuel count allRaw with
  | nil bytes =>
    obtain ⟨fuel, rfl⟩ : ∃ m, fuel = m + 1 := ⟨fuel - 1, by omega⟩
    obtain rfl : count = 0 := by simpa using hcount
    exact ⟨[], p, readRange_zero hin fuel allRaw, rfl⟩
  | @data raw rest data later hmember _ ih =>
    obtain ⟨fuel, rfl⟩ : ∃ m, fuel = m + 1 := ⟨fuel - 1, by omega⟩
    by_cases hzero : count = 0
    · subst hzero
      exact ⟨[], p, readRange_zero hin fuel allRaw, rfl⟩
    · obtain ⟨headerSize, ty, hframed, hty, hdecompress⟩ := hmember
      have hpos := hframed.length_pos
      have hprefix : raw <+: file.drop p := by
        rw [hfile]
        exact List.prefix_append _ _
      have hnext : file.drop (p + raw.length) = rest := by
        rw [← List.drop_drop, hfile, List.drop_left]
      have hfirst : blocks.getD r.nextBlockIndex [] = data := by
        have hget : (blocks.drop r.nextBlockIndex)[0]? = some data := by rw [hblocks]; rfl
        rw [List.getElem?_drop, Nat.add_zero] at hget
        rw [List.getD_eq_getElem?_getD, hget, Option.getD_some]
      have hlater : blocks.drop (r.nextBlockIndex + 1) = later := by
        rw [← List.drop_drop, hblocks]
        rfl
      rw [List.length_append] at hfuel
      rw [List.length_cons] at hcount
      obtain ⟨raws, q, hrun, hall⟩ := ih (r := { r with
          inner := ⟨file, p + raw.length, []⟩
          nextBlockIndex := r.nextBlockIndex + 1 }) rfl hnext hlater
            (show count - 1 ≤ later.length by omega)
        (show rest.length < fuel by omega) (allRaw ++ [(r.nextBlockIndex, raw, headerSize)])
      refine ⟨(r.nextBlockIndex, raw, headerSize) :: raws, q, ?_, ?_⟩
      · rw [readRange, if_neg hzero,
          Program.bind_ok (Prog.intoIo_ok (readOneRawBlock_framed hframed hin hprefix))]
        simp only [hty, if_false]
        rw [Program.bind_ok (Program.get_apply _)]
        simp only [Nat.add_sub_cancel]
        rw [hrun]
        simp only [List.append_assoc, List.singleton_append,
          show r.nextBlockIndex + 1 + (count - 1) = r.nextBlockIndex + count by omega]
      · obtain ⟨count, rfl⟩ : ∃ m, count = m + 1 := ⟨count - 1, by omega⟩
        rw [List.range'_succ, numbered, List.map_cons, hfirst]
        exact decompressAll_cons hdecompress hall
  | @idx raw rest headerSize later hframed _ ih =>
    obtain ⟨fuel, rfl⟩ : ∃ m, fuel = m + 1 := ⟨fuel - 1, by omega⟩
    by_cases hzero : count = 0
    · subst hzero
      exact ⟨[], p, readRange_zero hin fuel allRaw, rfl⟩
    · have hpos := hframed.length_pos
      have hprefix : raw <+: file.drop p := by
        rw [hfile]
        exact List.prefix_append _ _
      have hnext : file.drop (p + raw.length) = rest := by
        rw [← List.drop_drop, hfile, List.drop_left]
      rw [List.length_append] at hfuel
      obtain ⟨raws, q, hrun, hall⟩ :=
        ih (r := { r with inner := ⟨file, p + raw.length, []⟩ }) rfl hnext hblocks
          hcount (show rest.length < fuel by omega) allRaw
      refine ⟨raws, q, ?_, hall⟩
      rw [readRange, if_neg hzero,
        Program.bind_ok (Prog.intoIo_ok (readOneRawBlock_framed hframed hin hprefix))]
      simp only [if_true]
      exact hrun

/-! ### A file and its index -/

/-- The index lists the blocks of the file, and every one of them stands where it says. -/
structure Describes (D : Deps) (file : Bytes) (index : PgzfIndex) (blocks : List Bytes) : Prop where
  blockCount : index.blockCount = blocks.length
  uncompressedOffsets :
    index.uncompressedOffsets = (List.range (blocks.length + 1)).map (BlockCursor.offset blocks)
  ne_nil : ∀ data ∈ blocks, data ≠ []
  holds : ∀ i < blocks.length, ∃ p, index.compressedOffset i = some p ∧
    Holds D (file.drop p) (blocks.drop i)
  offsets : index.compressedOffsets.length = blocks.length + 1

theorem length_blockMetas {level : Nat} (groups : List (List Bytes)) (g : Nat) :
    (blockMetas D level g groups).length = groups.flatten.length := by
  induction groups generalizing g with
  | nil => rfl
  | cons blocks groups ih =>
    rw [blockMetas, List.length_append, ih, List.length_mapIdx, length_groupEntries,
      List.flatten_cons, List.length_append]

/-- The offsets at which the blocks begin in the data. -/
theorem starts_blocks (blocks : List Bytes) :
    RunningSum.starts 0 (blocks.map List.length) ++ [blocks.flatten.length] =
      (List.range (blocks.length + 1)).map (BlockCursor.offset blocks) := by
  have hoffset : ∀ i < blocks.length,
      (RunningSum.starts 0 (blocks.map List.length))[i]? = some (BlockCursor.offset blocks i) := by
    intro i hi
    rw [RunningSum.getElem?_starts 0 (by rwa [List.length_map]), Nat.zero_add, ← List.map_take,
      RunningSum.sum_map_length, BlockCursor.offset]
  have hstarts : RunningSum.starts 0 (blocks.map List.length) =
      (List.range blocks.length).map (BlockCursor.offset blocks) := by
    apply List.ext_getElem?
    intro i
    by_cases hi : i < blocks.length
    · rw [hoffset i hi, List.getElem?_map, List.getElem?_range hi, Option.map_some]
    · rw [List.getElem?_eq_none (by rw [RunningSum.length_starts, List.length_map]; omega),
        List.getElem?_eq_none (by rw [List.length_map, List.length_range]; omega)]
  rw [hstarts, List.range_succ, List.map_append, List.map_singleton, BlockCursor.offset_length]

section Indexed

variable {level limit : Nat} {groups : List (List Bytes)}

theorem describes_of_placed {file : Bytes}
    (hfits : ∀ blocks ∈ groups, GroupFits D level limit blocks)
    (hplaced : Placed D file (memberOffsets D level 0 groups) groups.flatten) :
    Describes D file (indexOf D level groups) groups.flatten := by
  refine ⟨length_blockMetas groups 0, starts_blocks groups.flatten, ?_, ?_, ?_⟩
  · intro data hdata
    obtain ⟨blocks, hblocks, hmem⟩ := List.mem_flatten.mp hdata
    exact ((hfits blocks hblocks).data data hmem).1
  · intro i hi
    obtain ⟨p, hp, hholds⟩ := hplaced.get hi
    refine ⟨p, ?_, hholds⟩
    have hlt : i < (memberOffsets D level 0 groups).length := by
      rw [hplaced.length_eq]
      exact hi
    rw [PgzfIndex.compressedOffset, indexOf, List.getElem?_append_left hlt, hp]
  · rw [indexOf, List.length_append, hplaced.length_eq, List.length_singleton]

/-- The index of a file of whole groups describes it, whatever stands behind the groups. -/
theorem describes_indexOf (hfits : ∀ blocks ∈ groups, GroupFits D level (2 ^ 30) blocks)
    (hinflates : ∀ blocks ∈ groups, GroupInflates D level blocks) (rest : Bytes) :
    Describes D (fileBytes D level groups ++ rest) (indexOf D level groups) groups.flatten := by
  obtain ⟨-, hplaced⟩ := placed_fileBytes hfits hinflates
    (show (fileBytes D level groups ++ rest).drop 0 = fileBytes D level groups ++ rest from rfl)
      (.nil rest)
    (show Placed D _ [] [] from trivial)
  rw [List.append_nil, List.append_nil] at hplaced
  exact describes_of_placed hfits hplaced

theorem describes_front (hfits : ∀ blocks ∈ groups, GroupFits D level (2 ^ 30) blocks)
    (hinflates : ∀ blocks ∈ groups, GroupInflates D level blocks) {blocks : List Bytes}
    (hblocks : GroupFits D level (2 ^ 30) blocks) (hinflates' : GroupInflates D level blocks)
    (rest : Bytes) :
    Describes D (fileBytes D level groups ++ (groupFront D level blocks ++ rest))
      (indexOf D level (groups ++ [blocks]))
      (groups ++ [blocks]).flatten := by
  have hdrop : (fileBytes D level groups ++ (groupFront D level blocks ++ rest)).drop
      (fileBytes D level groups).length =
      (groupMembers D level (groupGc D level blocks) blocks).flatten ++
        (idxHeader (idxZc D level blocks.length) (groupEntries D level blocks) ++ rest) := by
    rw [List.drop_left, groupFront, List.append_assoc]
  have hlast :=
    placed_members (dataMember_groupMembers (groupGc D level blocks) hblocks hinflates') hdrop
      (.nil _) (show Placed D _ [] [] from trivial)
  rw [List.append_nil, List.append_nil, map_length_groupMembers D level _ 0, List.drop_left]
    at hlast
  obtain ⟨-, hplaced⟩ := placed_fileBytes hfits hinflates (List.drop_zero) hlast.1 hlast.2
  have hall : ∀ b ∈ groups ++ [blocks], GroupFits D level (2 ^ 30) b := fun b hb =>
    (List.mem_append.mp hb).elim (hfits b) fun hb => List.mem_singleton.mp hb ▸ hblocks
  apply describes_of_placed hall
  rw [memberOffsets_append, Nat.zero_add, List.flatten_append, List.flatten_cons, List.flatten_nil,
    List.append_nil, memberOffsets, memberOffsets, List.append_nil]
  exact hplaced

end Indexed

variable {file : Bytes} {index : PgzfIndex} {blocks : List Bytes}

/-- Phase 2 reads the blocks of its ranges. -/
theorem readRanges_describes (hd : Describes D file index blocks) {ranges : List (Nat × Nat)}
    (hranges : ∀ range ∈ ranges, range.1 < range.2 ∧ range.2 ≤ blocks.length) {r : PgzfReader D}
    {p : Nat} (hin : r.inner = ⟨file, p, []⟩) (allRaw : List (Nat × Bytes × Nat)) :
    ∃ raws q next, readRanges (ranges.map fun range =>
      (range, (index.compressedOffset range.1).getD 0)) allRaw r =
        .ok (allRaw ++ raws, false) { r with inner := ⟨file, q, []⟩, nextBlockIndex := next } ∧
      decompressAll D raws = .ok (numbered blocks (ranges.flatMap rangeIndices)) := by
  induction ranges generalizing r p allRaw with
  | nil =>
    refine ⟨[], p, r.nextBlockIndex, ?_, rfl⟩
    rw [List.map_nil, readRanges, Program.pure_apply, List.append_nil, ← hin]
  | cons range ranges ih =>
    obtain ⟨first, stop⟩ := range
    obtain ⟨hlt, hle⟩ := hranges (first, stop) List.mem_cons_self
    obtain ⟨offset, hoffset, hholds⟩ := hd.holds first (by simp only at hlt hle; omega)
    have hcount : stop - first ≤ (blocks.drop first).length := by
      rw [List.length_drop]
      simp only at hle
      omega
    have hfuel : (file.drop offset).length < file.length + 1 := by
      rw [List.length_drop]
      omega
    obtain ⟨raws, q, hrun, hall⟩ := readRange_holds hholds (r := { r with
        inner := ⟨file, offset, []⟩
        nextBlockIndex := first }) rfl rfl rfl hcount hfuel allRaw
    obtain ⟨raws', q', next, hrun', hall'⟩ :=
      ih (fun range h => hranges range (List.mem_cons_of_mem _ h))
        (r := { r with inner := ⟨file, q, []⟩, nextBlockIndex := first + (stop - first) }) rfl
          (allRaw ++ raws)
    refine ⟨raws ++ raws', q', next, ?_, ?_⟩
    · simp only [List.map_cons, readRanges, hoffset, Option.getD_some]
      rw [Program.bind_ok (Prog.intoIo_ok (onInner_seekStart hin offset)),
        Program.bind_ok (Program.modify_apply _ _), Program.bind_ok (Program.get_apply _)]
      simp only
      rw [Program.bind_ok hrun]
      simp only [Bool.false_eq_true, if_false]
      rw [hrun', List.append_assoc]
    · rw [List.flatMap_cons, numbered_append]
      exact decompressAll_append hall hall'

/-! ### Phase 3 -/

def insertAll (blocks : List Bytes) (cache : BlockCache D) (indices : List Nat) : BlockCache D :=
  indices.foldl (fun cache i => cache.insert i (blocks.getD i [])) cache

/-- Storing the missing blocks completes the batch. -/
theorem storeBlocks_eq {start len : Nat} {todo : List Nat}
    (hrange : ∀ i ∈ todo, start ≤ i ∧ i < start + len) {results : List (Option Bytes)}
    (hlen : results.length = len)
    (hresults : ∀ k < len, results[k]? = some (some (blocks.getD (start + k) [])) ∨
      start + k ∈ todo)
    (r : PgzfReader D) :
    storeBlocks start (numbered blocks todo) results r =
      .ok ((List.range' start len).map fun i => some (blocks.getD i []))
        { r with blockCache := insertAll blocks r.blockCache todo } := by
  induction todo generalizing results r with
  | nil =>
    have hdone : results = (List.range' start len).map fun i => some (blocks.getD i []) := by
      apply List.ext_getElem?
      intro k
      by_cases hk : k < len
      · rcases hresults k hk with h | h
        · rw [h, List.getElem?_map, List.getElem?_range' hk, Option.map_some, Nat.one_mul]
        · exact absurd h List.not_mem_nil
      · rw [List.getElem?_eq_none (by omega),
          List.getElem?_eq_none (by rw [List.length_map, List.length_range']; omega)]
    rw [numbered, List.map_nil, storeBlocks, Program.pure_apply, hdone]
    rfl
  | cons i rest ih =>
    obtain ⟨hlo, hhi⟩ := hrange i List.mem_cons_self
    have hroom : ¬ (i < start ∨ results.length ≤ i - start) := by omega
    rw [numbered, List.map_cons, storeBlocks, Program.bind_ok (Program.modify_apply _ _),
      if_neg hroom]
    refine ih (fun j hj => hrange j (List.mem_cons_of_mem _ hj))
      (by rw [List.length_set, hlen]) ?_ _
    intro k hk
    by_cases hki : k = i - start
    · left
      rw [hki, List.getElem?_set_self (by omega), show start + (i - start) = i by omega]
    · rw [List.getElem?_set_ne (fun h => hki h.symm)]
      rcases hresults k hk with h | h
      · exact .inl h
      · rcases List.mem_cons.mp h with h | h
        · exact absurd (by omega) hki
        · exact .inr h

/-! ### The batch -/

def missing (cache : BlockCache D) (start stop : Nat) : List Nat :=
  (List.range' start (stop - start)).filter fun i => (cache.lookup i).isNone

/-- Where the reader believes a batch ends: behind the last block it had to read. -/
def refillEnd (cache : BlockCache D) (start stop : Nat) : Nat :=
  match (missing cache start stop).getLast? with
  | none => stop
  | some last => last + 1

theorem refillEnd_of_nil {cache : BlockCache D} {start stop : Nat}
    (h : missing cache start stop = []) :
    refillEnd cache start stop = stop := by
  rw [refillEnd, h]
  rfl

theorem refillEnd_of_last {cache : BlockCache D} {start stop last : Nat}
    (h : (missing cache start stop).getLast? = some last) :
    refillEnd cache start stop = last + 1 := by
  rw [refillEnd, h]

/-- The cache after a refill: the batch looked up twice, and the missing blocks stored. -/
def refillCache (blocks : List Bytes) (cache : BlockCache D) (start stop : Nat) : BlockCache D :=
  let batch := List.range' start (stop - start)
  insertAll blocks (cacheLookups batch (cacheLookups batch cache).2).2 (missing cache start stop)

theorem mem_missing {cache : BlockCache D} {start stop i : Nat} :
    i ∈ missing cache start stop ↔ (start ≤ i ∧ i < stop) ∧ cache.lookup i = none := by
  rw [missing, List.mem_filter, List.mem_range'_1, Option.isNone_iff_eq_none]
  constructor
  · rintro ⟨⟨hlo, hhi⟩, hnone⟩
    exact ⟨⟨hlo, by omega⟩, hnone⟩
  · rintro ⟨⟨hlo, hhi⟩, hnone⟩
    exact ⟨⟨hlo, by omega⟩, hnone⟩

theorem refillEnd_le (cache : BlockCache D) (start stop : Nat) :
    refillEnd cache start stop ≤ stop := by
  cases hlast : (missing cache start stop).getLast? with
  | none => rw [refillEnd_of_nil (List.getLast?_eq_none_iff.mp hlast)]
  | some last =>
    rw [refillEnd_of_last hlast]
    exact (mem_missing.mp (List.mem_of_getLast? hlast)).1.2

theorem missing_of_ahead {cache : BlockCache D} {start : Nat}
    (h : ∀ i, start ≤ i → cache.lookup i = none) (stop : Nat) :
    missing cache start stop = List.range' start (stop - start) := by
  rw [missing, List.filter_eq_self]
  intro i hi
  rw [h i (List.mem_range'_1.mp hi).1]
  rfl

theorem missing_eq (cache : BlockCache D) (batch : List Nat) :
    (batch.zip (batch.map cache.lookup)).filterMap (fun x => if x.2.isNone then some x.1
      else none) =
      batch.filter fun i => (cache.lookup i).isNone := by
  induction batch with
  | nil => rfl
  | cons i rest ih =>
    rw [List.map_cons, List.zip_cons_cons, List.filterMap_cons, List.filter_cons]
    cases hlookup : (cache.lookup i).isNone <;> simp only [ih, if_true, if_false,
      Bool.false_eq_true]

theorem range'_getD (blocks : List Bytes) {start stop : Nat} (hle : stop ≤ blocks.length) :
    (List.range' start (stop - start)).map (fun i => blocks.getD i []) = (blocks.drop start).take
      (stop - start) := by
  apply List.ext_getElem?
  intro k
  by_cases hk : k < stop - start
  · rw [List.getElem?_map, List.getElem?_range' hk, List.getElem?_take_of_lt hk, List.getElem?_drop,
      Option.map_some,
      Nat.one_mul, List.getD_eq_getElem?_getD,
        List.getElem?_eq_getElem (by omega : start + k < blocks.length),
      Option.getD_some]
  · rw [List.getElem?_eq_none (by rw [List.length_map, List.length_range']; omega),
      List.getElem?_eq_none (by rw [List.length_take]; omega)]

theorem sound_insertAll {cache : BlockCache D} (h : cache.Sound blocks) {indices : List Nat}
    (hindices : ∀ i ∈ indices, i < blocks.length) :
    (insertAll blocks cache indices).Sound blocks := by
  induction indices generalizing cache with
  | nil => exact h
  | cons i rest ih =>
    have hi := hindices i List.mem_cons_self
    refine ih (h.insert ?_) fun j hj => hindices j (List.mem_cons_of_mem _ hj)
    rw [List.getD_eq_getElem?_getD, List.getElem?_eq_getElem hi, Option.getD_some]

theorem capacity_insertAll (blocks : List Bytes) (cache : BlockCache D) (indices : List Nat) :
    (insertAll blocks cache indices).capacity = cache.capacity := by
  induction indices generalizing cache with
  | nil => rfl
  | cons i rest ih =>
    have hrest := ih (cache.insert i (blocks.getD i []))
    rwa [BlockCache.capacity_insert] at hrest

theorem capacity_refillCache (blocks : List Bytes) (cache : BlockCache D) (start stop : Nat) :
    (refillCache blocks cache start stop).capacity = cache.capacity := by
  rw [refillCache, capacity_insertAll, BlockCache.capacity_cacheLookups,
    BlockCache.capacity_cacheLookups]

theorem lookup_insertAll_ne_none {cache : BlockCache D} {indices : List Nat} {j : Nat}
    (h : (insertAll blocks cache indices).lookup j ≠ none) :
    j ∈ indices ∨ cache.lookup j ≠ none := by
  induction indices generalizing cache with
  | nil => exact .inr h
  | cons i rest ih =>
    have hrest : (insertAll blocks (cache.insert i (blocks.getD i [])) rest).lookup j ≠ none := h
    rcases ih hrest with hmem | hne
    · exact .inl (List.mem_cons_of_mem _ hmem)
    · rcases BlockCache.lookup_insert_ne_none hne with rfl | hne
      · exact .inl List.mem_cons_self
      · exact .inr hne

theorem lookup_refillCache_ne_none {cache : BlockCache D} {start stop j : Nat}
    (h : (refillCache blocks cache start stop).lookup j ≠ none) :
    j < stop ∨ cache.lookup j ≠ none := by
  rcases lookup_insertAll_ne_none h with hmem | hne
  · exact .inl (mem_missing.mp hmem).1.2
  · rw [BlockCache.lookup_cacheLookups, BlockCache.lookup_cacheLookups] at hne
    exact .inr hne

theorem sound_refillCache {cache : BlockCache D} (h : cache.Sound blocks) {start stop : Nat}
    (hle : stop ≤ blocks.length) : (refillCache blocks cache start stop).Sound blocks := by
  refine sound_insertAll ((h.cacheLookups _).cacheLookups _) fun i hi => ?_
  obtain ⟨⟨-, hhi⟩, -⟩ := mem_missing.mp hi
  omega

theorem groupContiguous_missing {cache : BlockCache D} {start stop : Nat} {range : Nat × Nat}
    (h : range ∈ groupContiguous (missing cache start stop)) :
    start ≤ range.1 ∧ range.1 < range.2 ∧ range.2 ≤ stop := by
  have hlt := groupContiguous_lt h
  have hmem : ∀ i, range.1 ≤ i → i < range.2 → start ≤ i ∧ i < stop := by
    intro i hlo hhi
    have hflat : i ∈ (groupContiguous (missing cache start stop)).flatMap rangeIndices := by
      refine List.mem_flatMap.mpr ⟨range, h, ?_⟩
      rw [rangeIndices, List.mem_range'_1]
      omega
    rw [groupContiguous_indices, mem_missing] at hflat
    exact hflat.1
  have hfirst := hmem range.1 (Nat.le_refl _) hlt
  have hlast := hmem (range.2 - 1) (by omega) (by omega)
  omega

theorem lookup_or_missing {cache : BlockCache D} (hsound : cache.Sound blocks) {start stop k : Nat}
    (hk : k < stop - start) : ((List.range' start (stop - start)).map cache.lookup)[k]? =
      some (some (blocks.getD (start + k) [])) ∨ start + k ∈ missing cache start stop := by
  rw [List.getElem?_map, List.getElem?_range' hk, Option.map_some, Nat.one_mul]
  cases hlookup : cache.lookup (start + k) with
  | none => exact .inr (mem_missing.mpr ⟨⟨by omega, by omega⟩, hlookup⟩)
  | some data =>
    left
    rw [List.getD_eq_getElem?_getD, hsound.lookup hlookup, Option.getD_some]

def lookedUp (cache : BlockCache D) (start stop : Nat) : BlockCache D :=
  (cacheLookups (List.range' start (stop - start))
    (cacheLookups (List.range' start (stop - start)) cache).2).2

/-- Phase 3 of a refill: what there is of the batch goes to the end of the queue. -/
def assemble (index : PgzfIndex) (stop : Nat) (results : List (Option Bytes)) (hitEof : Bool) :
    Prog (PgzfReader D) Unit := do
  modify fun r => { r with readahead := r.readahead ++ results.filterMap id }
  let r ← get
  if r.readahead.isEmpty && (hitEof || decide (stop ≥ index.blockCount)) then
    set { r with eof := true }

/-- Phase 2 of a refill, where something is missing, and phase 3. -/
def fetchMissing (index : PgzfIndex) (start stop : Nat) (ranges : List (Nat × Nat))
    (results : List (Option Bytes)) :
    Prog (PgzfReader D) Unit := do
  let (allRaw, eof) ← readRanges (ranges.map fun range =>
    (range, (index.compressedOffset range.1).getD 0)) []
  let decompressed ← Prog.ofExcept (decompressAll D allRaw)
  let results ← storeBlocks start decompressed results
  let lastEnd := (ranges.getLast?.map Prod.snd).getD start
  Prog.intoIo
    (onInner (Source.seekStart ((index.compressedOffset lastEnd).getD index.totalCompressed)))
  modify fun r => { r with nextBlockIndex := lastEnd }
  assemble index stop results eof

/-- What a refill does comes down to which blocks are missing, and to what is cached. -/
theorem fetchBatch_apply (index : PgzfIndex) (start stop : Nat) (r : PgzfReader D) :
    fetchBatch index start stop r = if missing r.blockCache start stop = [] then
        assemble index stop ((List.range' start (stop - start)).map r.blockCache.lookup) false
          { r with nextBlockIndex := stop, blockCache := lookedUp r.blockCache start stop }
      else
        fetchMissing index start stop (groupContiguous (missing r.blockCache start stop))
          ((List.range' start (stop - start)).map r.blockCache.lookup)
          { r with blockCache := lookedUp r.blockCache start stop } := by
  have hfound := BlockCache.cacheLookups_fst (List.range' start (stop - start)) r.blockCache
  have hfound' : (cacheLookups (List.range' start (stop - start))
      (cacheLookups (List.range' start (stop - start)) r.blockCache).2).1 =
        (List.range' start (stop - start)).map r.blockCache.lookup := by
    rw [BlockCache.cacheLookups_fst]
    exact List.map_congr_left fun i _ => BlockCache.lookup_cacheLookups _ _ i
  have hmissing : ((List.range' start (stop - start)).zip
      ((List.range' start (stop - start)).map r.blockCache.lookup)).filterMap
        (fun x => if x.2.isNone then some x.1 else none) = missing r.blockCache start stop :=
    missing_eq r.blockCache _
  rw [fetchBatch, Program.bind_ok (Program.get_apply _)]
  simp only [hfound, hfound', hmissing]
  rw [Program.bind_ok (Program.set_apply _ _)]
  have hempty : ((groupContiguous (missing r.blockCache start stop)).map fun range =>
      (range, (index.compressedOffset range.1).getD 0)).isEmpty = true ↔
          missing r.blockCache start stop = [] := by
    rw [List.isEmpty_iff, List.map_eq_nil_iff, groupContiguous_eq_nil_iff]
  by_cases hnil : missing r.blockCache start stop = []
  · rw [if_pos hnil]
    split
    · rw [Program.bind_ok (Program.modify_apply _ _), Program.bind_ok (Program.pure_apply _ _)]
      rfl
    · rename_i hne
      exact absurd (hempty.mpr hnil) hne
  · rw [if_neg hnil]
    split
    · rename_i hsome
      exact absurd (hempty.mp hsome) hnil
    · rfl

/-- Phase 3 adds the batch to the queue, which then is not empty. -/
theorem assemble_batch {start stop : Nat} (hlt : start < stop) (hle : stop ≤ blocks.length)
    (hitEof : Bool) {r : PgzfReader D} (hempty : r.readahead = []) :
    assemble index stop ((List.range' start (stop - start)).map fun i =>
      some (blocks.getD i [])) hitEof r =
      .ok () { r with readahead := (blocks.drop start).take (stop - start) } := by
  have hqueue : ((List.range' start (stop - start)).map fun i =>
      some (blocks.getD i [])).filterMap id = (blocks.drop start).take (stop - start) := by
    rw [List.filterMap_map, ← range'_getD blocks hle, ← List.filterMap_eq_map]
    rfl
  have hne : (blocks.drop start).take (stop - start) ≠ [] := by
    apply List.ne_nil_of_length_pos
    rw [List.length_take, List.length_drop]
    omega
  have hnotEmpty : ((blocks.drop start).take (stop - start)).isEmpty = false := by
    rwa [List.isEmpty_eq_false_iff]
  rw [assemble, Program.bind_ok (Program.modify_apply _ _), Program.bind_ok (Program.get_apply _)]
  simp only [hempty, List.nil_append, hqueue, hnotEmpty, Bool.false_and, Bool.false_eq_true,
    if_false, Program.pure_apply]

/-- A refill puts the batch into the queue, in order, whatever part of it was cached. Unless all of
it was, the source then stands where the reader believes the batch ends. -/
theorem fetchBatch_eq (hd : Describes D file index blocks) {r : PgzfReader D} {p start stop : Nat}
    (hin : r.inner = ⟨file, p, []⟩) (hlt : start < stop) (hle : stop ≤ blocks.length)
    (hsound : r.blockCache.Sound blocks) (hempty : r.readahead = []) :
    ∃ q, fetchBatch index start stop r = .ok () { r with
        inner := ⟨file, q, []⟩
        readahead := (blocks.drop start).take (stop - start)
        nextBlockIndex := refillEnd r.blockCache start stop
        blockCache := refillCache blocks r.blockCache start stop } ∧
      (missing r.blockCache start stop ≠ [] →
        q = (index.compressedOffset (refillEnd r.blockCache start stop)).getD
          index.totalCompressed) := by
  have hall : ∀ k < stop - start, ((List.range' start (stop - start)).map r.blockCache.lookup)[k]? =
      some (some (blocks.getD (start + k) [])) ∨ start + k ∈ missing r.blockCache start stop :=
    fun k hk => lookup_or_missing hsound hk
  have hbatchLen : ((List.range' start (stop - start)).map r.blockCache.lookup).length = stop -
      start := by
    rw [List.length_map, List.length_range']
  rw [fetchBatch_apply]
  cases hlast : (missing r.blockCache start stop).getLast? with
  | none =>
    -- everything is cached
    have hnil : missing r.blockCache start stop = [] := List.getLast?_eq_none_iff.mp hlast
    rw [hnil] at hall
    have hstored := storeBlocks_eq (fun i hi => absurd hi List.not_mem_nil) hbatchLen hall r
    rw [numbered, List.map_nil, storeBlocks, Program.pure_apply] at hstored
    obtain ⟨hresults, -⟩ := EStateM.Result.ok.inj hstored
    refine ⟨p, ?_, fun hne => absurd hnil hne⟩
    rw [if_pos hnil, hresults, assemble_batch hlt hle _ (by exact hempty), refillEnd_of_nil hnil]
    simp only [refillCache, hnil, insertAll, List.foldl_nil, ← hin, lookedUp]
  | some last =>
    -- the ranges of the missing blocks are read
    have hend := groupContiguous_end hlast
    have hne : missing r.blockCache start stop ≠ [] := by
      intro hnil
      rw [hnil] at hlast
      exact absurd hlast (by simp)
    have hranges : ∀ range ∈ groupContiguous (missing r.blockCache start stop), range.1 < range.2 ∧
        range.2 ≤ blocks.length := by
      intro range hrange
      obtain ⟨-, hlt, hstop⟩ := groupContiguous_missing hrange
      exact ⟨hlt, Nat.le_trans hstop hle⟩
    obtain ⟨raws, q, next, hread, hdecompress⟩ := readRanges_describes hd hranges
      (r := { r with blockCache := lookedUp r.blockCache start stop }) hin []
    rw [groupContiguous_indices] at hdecompress
    rw [if_neg hne, fetchMissing, Program.bind_ok hread]
    simp only [List.nil_append, hdecompress, hend, Option.getD_some]
    rw [Program.bind_ok (Prog.ofExcept_ok _ _),
      Program.bind_ok
        (storeBlocks_eq (fun i hi => by have := mem_missing.mp hi; omega) hbatchLen hall _),
      Program.bind_ok (Prog.intoIo_ok (onInner_seekStart rfl _)),
        Program.bind_ok (Program.modify_apply _ _),
      assemble_batch hlt hle _ (by exact hempty), refillEnd_of_last hlast]
    exact ⟨_, rfl, fun _ => rfl⟩

end Pgzf
