import Pgzf.Batch

/-!
# The reader follows a cursor over the blocks

`Tracks` ties a reader to one position in the uncompressed data, through the pending seek, the block
being served, the queue, the next block and the end flag. A read answers as `BlockCursor.read` does
and keeps the relation, provided the refill it may need is a clean one: its batch ends where the
reader believes it ends. That is always so without a cache, and so long as nothing ahead of the
reader is cached.
-/

namespace Pgzf

open PgzfReader BlockCursor

variable {D : Deps} {file : Bytes} {index : PgzfIndex} {blocks : List Bytes}

/-! ### Looking a position up -/

theorem Describes.totalUncompressed (hd : Describes D file index blocks) :
    index.totalUncompressed = blocks.flatten.length := by
  rw [PgzfIndex.totalUncompressed, hd.uncompressedOffsets, List.range_succ, List.map_append,
    List.map_singleton, List.getLast?_concat, Option.getD_some, offset_length]

theorem Describes.getElem?_uncompressedOffsets (hd : Describes D file index blocks) {i x : Nat} :
    index.uncompressedOffsets[i]? = some x ↔ i ≤ blocks.length ∧ x = offset blocks i := by
  rw [hd.uncompressedOffsets, List.getElem?_map, Option.map_eq_some_iff]
  constructor
  · rintro ⟨j, hj, rfl⟩
    rw [List.getElem?_eq_some_iff] at hj
    obtain ⟨hlt, hget⟩ := hj
    rw [List.getElem_range] at hget
    rw [List.length_range] at hlt
    subst hget
    exact ⟨by omega, rfl⟩
  · rintro ⟨hi, rfl⟩
    exact ⟨i, List.getElem?_range (by omega), rfl⟩

theorem Describes.compressedOffset_isSome (hd : Describes D file index blocks) {i : Nat}
    (hi : i ≤ blocks.length) :
    ∃ p, index.compressedOffset i = some p := by
  have hlt : i < index.compressedOffsets.length := by
    rw [hd.offsets]
    omega
  exact ⟨_, List.getElem?_eq_getElem hlt⟩

/-- The block a position is in, and the place inside
it; the end of the data is behind the last block. -/
theorem seekByte_describes (hd : Describes D file index blocks) {pos : Nat}
    (hpos : pos ≤ blocks.flatten.length) :
    ∃ i k, index.seekByte D pos = .ok (i, k) ∧ i ≤ blocks.length ∧ pos = offset blocks i + k ∧
      (∀ h : i < blocks.length, k < blocks[i].length) ∧ (i = blocks.length → k = 0) := by
  have hsorted : index.uncompressedOffsets.Pairwise (· ≤ ·) := by
    rw [hd.uncompressedOffsets, List.pairwise_map]
    exact List.pairwise_le_range.imp fun h => offset_mono blocks h
  have hroom : ¬ pos > index.totalUncompressed := by
    rw [hd.totalUncompressed]
    omega
  rw [PgzfIndex.seekByte, if_neg hroom]
  cases hsearch : D.binarySearch index.uncompressedOffsets pos with
  | ok i =>
    have hget := D.binarySearch_ok _ _ _ hsorted hsearch
    obtain ⟨hi, hoffset⟩ := hd.getElem?_uncompressedOffsets.mp hget
    refine ⟨i, 0, ?_, hi, hoffset, fun h => ?_, fun _ => rfl⟩
    · simp only [List.getD_eq_getElem?_getD, hget, Option.getD_some, Nat.sub_self]
    · exact List.length_pos_iff.mpr (hd.ne_nil _ (List.getElem_mem h))
  | error i =>
    obtain ⟨-, hbelow, habove⟩ := D.binarySearch_error _ _ _ hsorted hsearch
    have hzero : i ≠ 0 := by
      rintro rfl
      have h0 :=
        habove 0 0 (hd.getElem?_uncompressedOffsets.mpr ⟨Nat.zero_le _, rfl⟩) (Nat.le_refl _)
      omega
    have hi : i ≤ blocks.length := by
      by_contra hgt
      have hlast :=
        hbelow blocks.length _ (hd.getElem?_uncompressedOffsets.mpr ⟨Nat.le_refl _, rfl⟩) (by omega)
      rw [offset_length] at hlast
      omega
    have hbefore := hd.getElem?_uncompressedOffsets (i := i - 1).mpr ⟨by omega, rfl⟩
    have hlo := hbelow (i - 1) _ hbefore (by omega)
    have hhi := habove i _ (hd.getElem?_uncompressedOffsets.mpr ⟨hi, rfl⟩) (Nat.le_refl _)
    have hsucc := offset_succ (show i - 1 < blocks.length by omega)
    rw [show i - 1 + 1 = i by omega] at hsucc
    refine ⟨i - 1, pos - offset blocks (i - 1), ?_, by omega, by omega, fun h => by omega,
      fun h => by omega⟩
    simp only [gt_iff_lt, Nat.pos_of_ne_zero hzero, if_true, List.getD_eq_getElem?_getD, hbefore,
      Option.getD_some]

/-! ### Clean refills -/

def batchStop (blocks : List Bytes) (r : PgzfReader D) (start : Nat) : Nat :=
  min blocks.length (start + r.readaheadSize)

/-- The block a read would refill from: the target of a pending seek when it is not cached, or the
next block when the current one is used up and the queue is empty. -/
def refillStart (index : PgzfIndex) (r : PgzfReader D) : Option Nat :=
  match r.pendingSeek with
  | some target =>
    match index.seekByte D target with
    | .ok (i, _) => if (r.blockCache.lookup i).isNone then some i else none
    | .error _ => none
  | none =>
    if r.currentPos < r.currentBlock.length ∨ r.eof = true ∨ r.readahead ≠ [] then none
      else some r.nextBlockIndex

theorem refillStart_pending {r : PgzfReader D} {target i skip : Nat}
    (hpending : r.pendingSeek = some target) (hseek : index.seekByte D target = .ok (i, skip)) :
    refillStart index r = if (r.blockCache.lookup i).isNone then some i else none := by
  rw [refillStart]
  simp only [hpending, hseek]

/-- The memory in use when a read refills: a pending seek has dropped the block being served. -/
def refillUsage (r : PgzfReader D) : Nat :=
  match r.pendingSeek with
  | some _ => r.blockCache.memoryUsage
  | none => r.blockCache.memoryUsage + r.currentBlock.length

def BelowLimit (r : PgzfReader D) : Prop :=
  ∀ limit, r.readaheadMemoryLimit = some limit → refillUsage r < limit

/-- A refill the next read may need is clean: the memory limit does not stop it, its arithmetic fits
into 64 bits, and its batch is cached completely or its last block is not. -/
def CleanRefill (index : PgzfIndex) (blocks : List Bytes) (r : PgzfReader D) : Prop :=
  ∀ start, refillStart index r = some start → start < blocks.length →
    BelowLimit r ∧ start + r.readaheadSize < 2 ^ 64 ∧
      (missing r.blockCache start (batchStop blocks r start) = [] ∨
        r.blockCache.lookup (batchStop blocks r start - 1) = none)

theorem refillEnd_of_clean {cache : BlockCache D} {start stop : Nat} (hlt : start < stop)
    (h : missing cache start stop = [] ∨ cache.lookup (stop - 1) = none) :
    refillEnd cache start stop = stop := by
  rcases h with hnil | hnone
  · exact refillEnd_of_nil hnil
  · have hlast : (missing cache start stop).getLast? = some (stop - 1) := by
      obtain ⟨m, hm⟩ : ∃ m, stop - start = m + 1 := ⟨stop - start - 1, by omega⟩
      rw [missing, hm, List.range'_concat, Nat.one_mul, show start + m = stop - 1 by omega,
        List.filter_append,
        List.filter_cons_of_pos (by rw [hnone]; rfl), List.filter_nil, List.getLast?_concat]
    rw [refillEnd_of_last hlast]
    omega

theorem missing_congr {cache cache' : BlockCache D} (h : ∀ i, cache'.lookup i = cache.lookup i)
    (start stop : Nat) :
    missing cache' start stop = missing cache start stop := by
  rw [missing, missing]
  exact List.filter_congr fun i _ => by rw [h i]

/-- The queue is refilled with the blocks of a clean batch. -/
theorem fillReadahead_eq (hd : Describes D file index blocks) {r : PgzfReader D} {p : Nat}
    (hin : r.inner = ⟨file, p, []⟩) (hpgzf : r.isPgzf = true) (hindex : r.index = some index)
    (hempty : r.readahead = []) (hsound : r.blockCache.Sound blocks)
    (hlimit : ∀ limit, r.readaheadMemoryLimit = some limit → r.totalMemoryUsage < limit)
    (hsize : 0 < r.readaheadSize) (hlt : r.nextBlockIndex < blocks.length)
    (hfit : r.nextBlockIndex + r.readaheadSize < 2 ^ 64) :
    ∃ q, fillReadahead r = .ok () { r with
      inner := ⟨file, q, []⟩
      readahead :=
        (blocks.drop r.nextBlockIndex).take (batchStop blocks r r.nextBlockIndex - r.nextBlockIndex)
      nextBlockIndex :=
        refillEnd r.blockCache r.nextBlockIndex (batchStop blocks r r.nextBlockIndex)
      blockCache :=
        refillCache blocks r.blockCache r.nextBlockIndex (batchStop blocks r r.nextBlockIndex) } ∧
      (missing r.blockCache r.nextBlockIndex (batchStop blocks r r.nextBlockIndex) ≠ [] →
        q = (index.compressedOffset (refillEnd r.blockCache r.nextBlockIndex
          (batchStop blocks r r.nextBlockIndex))).getD index.totalCompressed) := by
  have hbelow : (r.readaheadMemoryLimit.any fun limit => decide (r.totalMemoryUsage ≥ limit)) =
      false := by
    cases hcase : r.readaheadMemoryLimit with
    | none => rfl
    | some limit => simpa using hlimit limit hcase
  have hmore : ¬ r.nextBlockIndex ≥ index.blockCount := by
    rw [hd.blockCount]
    omega
  obtain ⟨q, hfetch, hstands⟩ := fetchBatch_eq hd hin
    (show r.nextBlockIndex < batchStop blocks r r.nextBlockIndex by rw [batchStop]; omega)
      (Nat.min_le_left _ _) hsound
    hempty
  refine ⟨q, ?_, hstands⟩
  rw [fillReadahead, Program.bind_ok (Program.get_apply _)]
  simp only [hpgzf, Bool.not_true, Bool.false_eq_true, if_false, hempty, List.isEmpty_nil, hbelow,
    hindex, hmore]
  rw [Program.bind_ok (addU64_of_lt hfit _), hd.blockCount]
  simpa only [hpgzf, hindex, batchStop] using hfetch

/-- A call of `fillReadahead` fetches a batch: the queue is empty, the limit is not reached and
there is a next block. -/
def NeedsRefill (index : PgzfIndex) (r : PgzfReader D) : Prop :=
  r.readahead = [] ∧ (∀ limit, r.readaheadMemoryLimit = some limit → r.totalMemoryUsage < limit) ∧
    r.nextBlockIndex < index.blockCount

theorem fillReadahead_idle {r : PgzfReader D} (hpgzf : r.isPgzf = true)
    (hindex : r.index = some index) (hidle : ¬ NeedsRefill index r) :
    ∃ eof, fillReadahead r = .ok () { r with eof := eof } := by
  rw [fillReadahead, Program.bind_ok (Program.get_apply _)]
  simp only [hpgzf, Bool.not_true, Bool.false_eq_true, if_false, hindex]
  by_cases hempty : r.readahead = []
  · simp only [hempty, List.isEmpty_nil, Bool.not_true, Bool.false_eq_true, if_false]
    by_cases hbelow : (r.readaheadMemoryLimit.any fun limit =>
      decide (r.totalMemoryUsage ≥ limit)) = true
    · refine ⟨r.eof, ?_⟩
      simp only [hbelow, if_true, Program.pure_apply, ← hpgzf, ← hindex, ← hempty]
    · have hmore : r.nextBlockIndex ≥ index.blockCount := by
        by_contra hlt
        refine hidle ⟨hempty, fun limit hcase => ?_, Nat.not_le.mp hlt⟩
        simpa [hcase] using hbelow
      refine ⟨true, ?_⟩
      simp only [hbelow, if_false, hmore, if_true, Program.set_apply, Bool.false_eq_true]
  · have hqueue : r.readahead.isEmpty = false := by rwa [List.isEmpty_eq_false_iff]
    refine ⟨r.eof, ?_⟩
    simp only [hqueue, Bool.not_false, if_true, Program.pure_apply, ← hpgzf, ← hindex]

theorem fillReadahead_overflow {r : PgzfReader D} (hpgzf : r.isPgzf = true)
    (hindex : r.index = some index) (hneeds : NeedsRefill index r)
    (hover : 2 ^ 64 ≤ r.nextBlockIndex + r.readaheadSize) :
    fillReadahead r = .error (.panic "attempt to add with overflow") r := by
  obtain ⟨hempty, hlimit, hlt⟩ := hneeds
  have hbelow : (r.readaheadMemoryLimit.any fun limit => decide (r.totalMemoryUsage ≥ limit)) =
      false := by
    cases hcase : r.readaheadMemoryLimit with
    | none => rfl
    | some limit => simpa using hlimit limit hcase
  rw [fillReadahead, Program.bind_ok (Program.get_apply _)]
  simp only [hpgzf, Bool.not_true, Bool.false_eq_true, if_false, hempty, List.isEmpty_nil,
    hbelow, hindex, Nat.not_le.mpr hlt]
  exact Program.bind_error (addU64_of_le hover r)

theorem fillReadahead_end (hd : Describes D file index blocks) {r : PgzfReader D}
    (hpgzf : r.isPgzf = true) (hindex : r.index = some index)
    (hend : blocks.length ≤ r.nextBlockIndex) :
    ∃ eof, fillReadahead r = .ok () { r with eof := eof } := by
  apply fillReadahead_idle hpgzf hindex
  rintro ⟨-, -, hlt⟩
  rw [hd.blockCount] at hlt
  omega

/-! ### The relation -/

/-- With no seek pending: what is left of the current block, the queue, and the blocks from the next
one on continue each other from `pos`; `j` is the first block of the queue. -/
structure Positioned (blocks : List Bytes) (r : PgzfReader D) (pos j : Nat) : Prop where
  le_next : j ≤ r.nextBlockIndex
  next_le : r.nextBlockIndex ≤ blocks.length
  queue : r.readahead = (blocks.drop j).take (r.nextBlockIndex - j)
  offset_eq : pos + (r.currentBlock.length - r.currentPos) = offset blocks j
  current : r.currentBlock = [] ∨ ∃ i, j = i + 1 ∧ blocks[i]? = some r.currentBlock
  eof : r.eof = true → pos = blocks.flatten.length

/-- The reader stands at `pos` in the data of the file. -/
structure Tracks (file : Bytes) (index : PgzfIndex) (blocks : List Bytes) (r : PgzfReader D)
    (pos : Nat) : Prop where
  inner : ∃ p, r.inner = ⟨file, p, []⟩
  isPgzf : r.isPgzf = true
  index_eq : r.index = some index
  readaheadSize : 0 < r.readaheadSize
  sound : r.blockCache.Sound blocks
  pos_le : pos ≤ blocks.flatten.length
  pending : ∀ target, r.pendingSeek = some target → target = pos ∧ r.currentBlock = [] ∧
    r.readahead = []
  placed : r.pendingSeek = none → ∃ j, Positioned blocks r pos j

theorem Positioned.segment_eq {r : PgzfReader D} {pos j : Nat} (h : Positioned blocks r pos j)
    (hleft : r.currentPos < r.currentBlock.length) :
    segment blocks pos = r.currentBlock.drop r.currentPos := by
  obtain ⟨i, rfl, hget⟩ := h.current.resolve_left fun hnil => by
    rw [hnil] at hleft
    exact absurd hleft (Nat.not_lt_zero _)
  obtain ⟨hi, hblock⟩ := List.getElem?_eq_some_iff.mp hget
  have hoffset := h.offset_eq
  rw [offset_succ hi, hblock] at hoffset
  rw [show pos = offset blocks i + r.currentPos by omega,
    segment_of_block hi (by rw [hblock]; exact hleft), hblock]

theorem positioned_block {r : PgzfReader D} {i k : Nat} (hi : i < blocks.length)
    (hk : k ≤ blocks[i].length) (hcurrent : r.currentBlock = blocks[i]) (hpos : r.currentPos = k)
    (hnext : i + 1 ≤ r.nextBlockIndex) (hle : r.nextBlockIndex ≤ blocks.length)
    (hqueue : r.readahead = (blocks.drop (i + 1)).take (r.nextBlockIndex - (i + 1)))
    (heof : r.eof = false) : Positioned blocks r (offset blocks i + k) (i + 1) := by
  refine ⟨hnext, hle, hqueue, ?_, .inr ⟨i, rfl, ?_⟩, fun h => absurd h (by rw [heof]; simp)⟩
  · rw [hcurrent, hpos, offset_succ hi]
    omega
  · rw [hcurrent, List.getElem?_eq_getElem hi]

theorem take_min_length (data : Bytes) (n : Nat) : data.take (min data.length n) = data.take n := by
  rw [Nat.min_comm, ← List.take_take, List.take_length]

theorem serve_current {r : PgzfReader D} {pos j n : Nat} (h : Positioned blocks r pos j)
    (hleft : r.currentPos < r.currentBlock.length) (hpos : pos ≤ blocks.flatten.length) :
    (BlockCursor.read blocks pos n).1 =
        (r.currentBlock.drop r.currentPos).take (min (r.currentBlock.drop r.currentPos).length n) ∧
      Positioned blocks { r with
        currentPos := r.currentPos + min (r.currentBlock.drop r.currentPos).length n }
          (BlockCursor.read blocks pos n).2 j := by
  have hsegment := h.segment_eq hleft
  have hout : (BlockCursor.read blocks pos n).1 =
      (r.currentBlock.drop r.currentPos).take
          (min (r.currentBlock.drop r.currentPos).length n) := by
    rw [BlockCursor.read, hsegment, take_min_length]
  have hlen : (BlockCursor.read blocks pos n).1.length =
      min (r.currentBlock.drop r.currentPos).length n := by
    rw [hout, List.length_take]
    omega
  have hle := read_snd_le n hpos
  refine ⟨hout, h.le_next, h.next_le, h.queue, ?_, h.current, fun heof => ?_⟩
  · have hoffset := h.offset_eq
    rw [read_snd, hlen, List.length_drop]
    simp only
    omega
  · have hend := h.eof heof
    rw [read_snd] at hle ⊢
    omega

/-! ### What a read leaves alone -/

/-- A read keeps the settings, goes forward, and caches nothing ahead of itself. -/
structure Frame (r r' : PgzfReader D) : Prop where
  readaheadSize : r'.readaheadSize = r.readaheadSize
  readaheadMemoryLimit : r'.readaheadMemoryLimit = r.readaheadMemoryLimit
  capacity : r'.blockCache.capacity = r.blockCache.capacity
  pendingSeek : r'.pendingSeek = none
  forward : r.pendingSeek = none → r.nextBlockIndex ≤ r'.nextBlockIndex
  cached : ∀ i, r'.blockCache.lookup i ≠ none → i < r'.nextBlockIndex ∨ r.blockCache.lookup i ≠ none

/-- What a read without a pending seek does to the cache: nothing, or one refill of the next batch.
Where no block has been served, none was taken. -/
structure Advance (index : PgzfIndex) (blocks : List Bytes) (r r' : PgzfReader D) : Prop where
  refill : (r'.nextBlockIndex = r.nextBlockIndex ∧ r'.blockCache = r.blockCache) ∨
    (refillStart index r = some r.nextBlockIndex ∧ r.nextBlockIndex < blocks.length ∧
      r'.nextBlockIndex = batchStop blocks r r.nextBlockIndex ∧
      r'.blockCache = refillCache blocks r.blockCache r.nextBlockIndex
        (batchStop blocks r r.nextBlockIndex))
  current : r'.currentBlock = [] → r.currentBlock = [] ∧ r'.nextBlockIndex = r.nextBlockIndex

theorem fillReadahead_clean (hd : Describes D file index blocks) {r : PgzfReader D} {p : Nat}
    (hin : r.inner = ⟨file, p, []⟩) (hpgzf : r.isPgzf = true) (hindex : r.index = some index)
    (hempty : r.readahead = []) (hsound : r.blockCache.Sound blocks)
    (hlimit : ∀ limit, r.readaheadMemoryLimit = some limit → r.totalMemoryUsage < limit)
    (hsize : 0 < r.readaheadSize) (hlt : r.nextBlockIndex < blocks.length)
    (hfit : r.nextBlockIndex + r.readaheadSize < 2 ^ 64)
    (hclean : missing r.blockCache r.nextBlockIndex (batchStop blocks r r.nextBlockIndex) = [] ∨
      r.blockCache.lookup (batchStop blocks r r.nextBlockIndex - 1) = none) :
    ∃ q, fillReadahead r = .ok () { r with
      inner := ⟨file, q, []⟩
      readahead := blocks[r.nextBlockIndex] :: (blocks.drop (r.nextBlockIndex + 1)).take
        (batchStop blocks r r.nextBlockIndex - (r.nextBlockIndex + 1))
      nextBlockIndex := batchStop blocks r r.nextBlockIndex
      blockCache := refillCache blocks r.blockCache r.nextBlockIndex
        (batchStop blocks r r.nextBlockIndex) } := by
  have hstop : r.nextBlockIndex < batchStop blocks r r.nextBlockIndex := by
    rw [batchStop]
    omega
  obtain ⟨q, hfill, -⟩ := fillReadahead_eq hd hin hpgzf hindex hempty hsound hlimit hsize hlt hfit
  refine ⟨q, ?_⟩
  rw [hfill, refillEnd_of_clean hstop hclean, List.drop_eq_getElem_cons hlt,
    show batchStop blocks r r.nextBlockIndex - r.nextBlockIndex =
      (batchStop blocks r r.nextBlockIndex - (r.nextBlockIndex + 1)) + 1 by omega,
        List.take_succ_cons]

theorem executePendingSeek_none {r : PgzfReader D} (hnone : r.pendingSeek = none) :
    executePendingSeek r = .ok () r := by
  rw [executePendingSeek, Program.bind_ok (Program.get_apply _)]
  simp only [hnone, Program.pure_apply]

/-- The reader in front of block `i`, with nothing served or queued. -/
def PgzfReader.movedTo (r : PgzfReader D) (s : Source) (i : Nat) : PgzfReader D :=
  { r with
    inner := s, currentBlock := [], currentPos := 0, eof := false,
    pendingSeek := none, readahead := []
    nextBlockIndex := i, blockCache := (r.blockCache.get i).2 }

/-- The last steps of a seek to a block that is not
cached: refill, and serve the block from `skip` on. -/
def serveTarget (skip : Nat) : Prog (PgzfReader D) Unit := do
  fillReadahead
  let r ← get
  match r.readahead with
  | buf :: rest => set { r with currentBlock := buf, currentPos := skip, readahead := rest }
  | [] => set { r with eof := true }

theorem executePendingSeek_refused {r : PgzfReader D} {target : Nat} {e : PgzfError}
    (hpending : r.pendingSeek = some target) (hindex : r.index = some index)
    (hseek : index.seekByte D target = .error e) :
    executePendingSeek r = .error (.error (.io ⟨.invalidInput, e.display⟩))
      { r with pendingSeek := none } := by
  rw [executePendingSeek, Program.bind_ok (Program.get_apply _)]
  simp only [hpending, hindex]
  rw [Program.bind_ok (Program.set_apply _ _), hseek]
  rfl

theorem seekByte_beyond {target : Nat} (hbeyond : index.totalUncompressed < target) :
    index.seekByte D target = .error (.seekBeyondEnd target index.totalUncompressed) := by
  rw [PgzfIndex.seekByte, if_pos hbeyond]

theorem executePendingSeek_hit {r : PgzfReader D} {target i skip : Nat} {data : Bytes} {s : Source}
    (hpending : r.pendingSeek = some target) (hindex : r.index = some index)
    (hseek : index.seekByte D target = .ok (i, skip)) (hlookup : r.blockCache.lookup i = some data)
    (hgo : Source.seekStart ((index.compressedOffset (i + 1)).getD index.totalCompressed) r.inner =
      .ok () s) :
    executePendingSeek r = .ok () { r.movedTo s i with
      currentBlock := data, currentPos := skip, nextBlockIndex := i + 1 } := by
  rw [BlockCache.lookup] at hlookup
  rw [executePendingSeek, Program.bind_ok (Program.get_apply _)]
  simp only [hpending, hindex]
  rw [Program.bind_ok (Program.set_apply _ _), hseek]
  simp only
  rw [Program.bind_ok (Program.modify_apply _ _), Program.bind_ok (Program.get_apply _)]
  simp only [hlookup]
  rw [Program.bind_ok (Program.set_apply _ _), Program.bind_ok (Program.modify_apply _ _),
    Program.bind_ok (onInner_ok (by exact hgo)), Program.modify_apply]
  simp only [movedTo, hindex]

theorem executePendingSeek_miss {r : PgzfReader D} {target i skip offset : Nat} {s : Source}
    (hpending : r.pendingSeek = some target) (hindex : r.index = some index)
    (hseek : index.seekByte D target = .ok (i, skip)) (hlookup : r.blockCache.lookup i = none)
    (hoffset : index.compressedOffset i = some offset)
    (hgo : Source.seekStart offset r.inner = .ok () s) :
    executePendingSeek r = serveTarget skip (r.movedTo s i) := by
  rw [BlockCache.lookup] at hlookup
  rw [executePendingSeek, Program.bind_ok (Program.get_apply _)]
  simp only [hpending, hindex]
  rw [Program.bind_ok (Program.set_apply _ _), hseek]
  simp only
  rw [Program.bind_ok (Program.modify_apply _ _), Program.bind_ok (Program.get_apply _)]
  simp only [hlookup, hoffset]
  rw [Program.bind_ok (Program.set_apply _ _), Program.bind_ok (onInner_ok (by exact hgo)),
    Program.bind_ok (Program.modify_apply _ _), ← hindex]
  rfl

theorem needsRefill_movedTo (index : PgzfIndex) {r : PgzfReader D} {target : Nat}
    (hpending : r.pendingSeek = some target) (s : Source) (i : Nat) :
    NeedsRefill index (r.movedTo s i) ↔ BelowLimit r ∧ i < index.blockCount := by
  have husage : (r.movedTo s i).totalMemoryUsage = refillUsage r := by
    rw [refillUsage, hpending, totalMemoryUsage, readaheadMemoryUsage]
    simp only [movedTo, BlockCache.memoryUsage_get, List.map_nil, List.sum_nil, List.length_nil,
      Nat.add_zero]
  rw [NeedsRefill, husage]
  exact and_iff_right rfl

/-- A pending seek is carried out: the reader then
stands inside the block of its target, or at the end. -/
theorem executePendingSeek_tracks (hd : Describes D file index blocks) {r : PgzfReader D}
    {pos : Nat} (h : Tracks file index blocks r pos) {target : Nat}
    (hpending : r.pendingSeek = some target) (hclean : CleanRefill index blocks r) :
    ∃ r', executePendingSeek r = .ok () r' ∧ Tracks file index blocks r' pos ∧ Frame r r' ∧
      (r'.currentPos < r'.currentBlock.length ∨ r'.eof = true ∧ r'.currentPos = 0 ∧
        r'.currentBlock = []) := by
  obtain ⟨rfl, -, -⟩ := h.pending target hpending
  obtain ⟨p, hin⟩ := h.inner
  obtain ⟨i, k, hseek, hi, hpos, hinside, hend⟩ := seekByte_describes hd h.pos_le
  cases hlookup : r.blockCache.lookup i with
  | some data =>
    have hget := h.sound.lookup (i := i) hlookup
    obtain ⟨hlt, hdata⟩ := List.getElem?_eq_some_iff.mp hget
    have hk : k < blocks[i].length := hinside hlt
    refine ⟨_, executePendingSeek_hit hpending h.index_eq hseek hlookup (seekStart_inner hin _), ?_,
      ?_, .inl (by rw [← hdata]; exact hk)⟩
    · refine ⟨⟨_, rfl⟩, h.isPgzf, h.index_eq, h.readaheadSize, h.sound.get i,
        h.pos_le, by simp [movedTo], fun _ => ⟨i + 1, ?_⟩⟩
      rw [hpos]
      exact positioned_block hlt (Nat.le_of_lt hk) hdata.symm rfl (Nat.le_refl _) hlt
        (by simp [movedTo]) rfl
    · refine ⟨rfl, rfl, BlockCache.capacity_get _ _, rfl, by simp [hpending], fun j hj => .inr ?_⟩
      rwa [← BlockCache.lookup_get r.blockCache i j]
  | none =>
    obtain ⟨offset, hoffset⟩ := hd.compressedOffset_isSome hi
    rw [executePendingSeek_miss hpending h.index_eq hseek hlookup hoffset (seekStart_inner hin _),
      serveTarget]
    have hstart : refillStart index r = some i := by
      rw [refillStart_pending hpending hseek, hlookup]
      rfl
    by_cases hlt : i < blocks.length
    · obtain ⟨hlimit, hfit, hbatch⟩ := hclean i hstart hlt
      have husage := ((needsRefill_movedTo index hpending ⟨file, offset, []⟩ i).mpr
        ⟨hlimit, by rwa [hd.blockCount]⟩).2.1
      have hk : k < blocks[i].length := hinside hlt
      have hstop : i < batchStop blocks r i := by
        have := h.readaheadSize
        rw [batchStop]
        omega
      rw [← missing_congr (BlockCache.lookup_get r.blockCache i),
        ← BlockCache.lookup_get r.blockCache i] at hbatch
      obtain ⟨q, hfill⟩ :=
        fillReadahead_clean hd (r := r.movedTo ⟨file, offset, []⟩ i) rfl h.isPgzf h.index_eq rfl
          (h.sound.get i) husage h.readaheadSize hlt hfit hbatch
      rw [Program.bind_ok hfill, Program.bind_ok (Program.get_apply _)]
      simp only [Program.set_apply]
      refine ⟨_, rfl, ?_, ?_, .inl hk⟩
      · refine ⟨⟨_, rfl⟩, h.isPgzf, h.index_eq, h.readaheadSize,
          sound_refillCache (h.sound.get i) (Nat.min_le_left _ _),
          h.pos_le, by simp [movedTo], fun _ => ⟨i + 1, ?_⟩⟩
        rw [hpos]
        exact positioned_block hlt (Nat.le_of_lt hk) rfl rfl hstop (Nat.min_le_left _ _) rfl rfl
      · refine ⟨rfl, rfl, ?_, rfl, by simp [hpending], fun j hj => ?_⟩
        · exact (capacity_refillCache _ _ _ _).trans (BlockCache.capacity_get _ _)
        · rcases lookup_refillCache_ne_none hj with hj | hj
          · exact .inl hj
          · exact .inr (by rwa [movedTo, BlockCache.lookup_get] at hj)
    · have hiEnd : i = blocks.length := by omega
      obtain rfl := hend hiEnd
      obtain ⟨eof, hfill⟩ :=
        fillReadahead_end hd (r := r.movedTo ⟨file, offset, []⟩ i) h.isPgzf h.index_eq
          (Nat.le_of_eq hiEnd.symm)
      rw [Program.bind_ok hfill, Program.bind_ok (Program.get_apply _)]
      simp only [movedTo, Program.set_apply]
      refine ⟨_, rfl, ?_, ?_, .inr ⟨rfl, rfl, rfl⟩⟩
      · refine ⟨⟨_, rfl⟩, h.isPgzf, h.index_eq, h.readaheadSize, h.sound.get i, h.pos_le, by simp,
          fun _ => ⟨i, ?_⟩⟩
        rw [hpos, Nat.add_zero]
        refine ⟨Nat.le_refl _, hi, by simp, rfl, .inl rfl, fun _ => ?_⟩
        rw [hiEnd, offset_length]
      · refine ⟨rfl, rfl, BlockCache.capacity_get _ _, rfl, by simp [hpending], fun j hj => .inr ?_⟩
        rwa [← BlockCache.lookup_get r.blockCache i j]

theorem read_of_executePendingSeek {r r' : PgzfReader D} (hseek : executePendingSeek r = .ok () r')
    (hnone : r'.pendingSeek = none) {n : Nat} (hn : n ≠ 0) :
    PgzfReader.read n r = PgzfReader.read n r' := by
  rw [PgzfReader.read, if_neg hn, Program.bind_ok hseek,
    Program.bind_ok (executePendingSeek_none hnone)]

theorem serveNext_cons {r : PgzfReader D} {next : Bytes} {rest : List Bytes}
    (hqueue : r.readahead = next :: rest) (n : Nat) :
    serveNext n r = .ok (some (next.take (min next.length n))) { r with
      currentBlock := next, currentPos := min next.length n, readahead := rest } := by
  rw [serveNext, Program.bind_ok (Program.get_apply _)]
  simp only [hqueue, Program.bind_apply, Program.set_apply, Program.pure_apply]

theorem serveNext_nil {r : PgzfReader D} (hqueue : r.readahead = []) (n : Nat) :
    serveNext n r = .ok none r := by
  rw [serveNext, Program.bind_ok (Program.get_apply _)]
  simp only [hqueue, Program.pure_apply]

theorem read_block {i : Nat} (hi : i < blocks.length) (hne : blocks[i] ≠ []) (n : Nat) :
    BlockCursor.read blocks (offset blocks i) n =
      (blocks[i].take (min blocks[i].length n), offset blocks i + min blocks[i].length n) := by
  have hsegment := segment_of_block hi (k := 0) (List.length_pos_iff.mpr hne)
  rw [Nat.add_zero, List.drop_zero] at hsegment
  rw [BlockCursor.read, hsegment, ← take_min_length, List.length_take,
    Nat.min_eq_left (Nat.min_le_left _ _)]

/-- Serving the block at the front of the queue: the reader stood where it begins. -/
theorem serveNext_tracks (hd : Describes D file index blocks) {r : PgzfReader D}
    (hin : ∃ p, r.inner = ⟨file, p, []⟩) (hpgzf : r.isPgzf = true) (hindex : r.index = some index)
    (hsize : 0 < r.readaheadSize) (hsound : r.blockCache.Sound blocks)
    (hnone : r.pendingSeek = none) (heof : r.eof = false) {j : Nat} (hj : j < blocks.length)
    (hnext : j + 1 ≤ r.nextBlockIndex) (hle : r.nextBlockIndex ≤ blocks.length)
    (hqueue : r.readahead = blocks[j] :: (blocks.drop (j + 1)).take (r.nextBlockIndex - (j + 1)))
    (n : Nat) :
    ∃ r', serveNext n r = .ok (some (BlockCursor.read blocks (offset blocks j) n).1) r' ∧
      Tracks file index blocks r' (BlockCursor.read blocks (offset blocks j) n).2 ∧ Frame r r' ∧
      (r'.nextBlockIndex = r.nextBlockIndex ∧ r'.blockCache = r.blockCache) ∧
        r'.currentBlock ≠ [] := by
  have hne := hd.ne_nil _ (List.getElem_mem hj)
  have hread := read_block hj hne n
  refine ⟨_, serveNext_cons hqueue n |>.trans (by rw [hread]), ?_, ?_, ?_, ?_⟩
  · refine ⟨hin, hpgzf, hindex, hsize, hsound, read_snd_le n (offset_le_length blocks j), ?_,
      fun _ => ⟨j + 1, ?_⟩⟩
    · intro target htarget
      exact absurd (hnone.symm.trans htarget) (by simp)
    · rw [hread]
      exact positioned_block hj (Nat.min_le_left _ _) rfl rfl hnext hle rfl heof
  · exact ⟨rfl, rfl, rfl, hnone, fun _ => Nat.le_refl _, fun i hi => .inr hi⟩
  · exact ⟨rfl, rfl⟩
  · exact hne

theorem Frame.trans {r₁ r₂ r₃ : PgzfReader D} (h : Frame r₁ r₂) (h' : Frame r₂ r₃) :
    Frame r₁ r₃ := by
  refine ⟨h'.readaheadSize.trans h.readaheadSize,
    h'.readaheadMemoryLimit.trans h.readaheadMemoryLimit,
    h'.capacity.trans h.capacity, h'.pendingSeek, fun hnone => ?_, fun i hi => ?_⟩
  · exact Nat.le_trans (h.forward hnone) (h'.forward h.pendingSeek)
  · rcases h'.cached i hi with hlt | hne
    · exact .inl hlt
    · rcases h.cached i hne with hlt | hne
      · exact .inl (Nat.lt_of_lt_of_le hlt (h'.forward h.pendingSeek))
      · exact .inr hne

/-- With the queue empty, a clean refill puts the next block at the front of it. -/
theorem readNextBlock_refill (hd : Describes D file index blocks) {r : PgzfReader D} {pos : Nat}
    (h : Tracks file index blocks r pos) (hnone : r.pendingSeek = none)
    (hclean : CleanRefill index blocks r) (hleft : ¬ r.currentPos < r.currentBlock.length)
    (heof : r.eof = false) (hempty : r.readahead = []) (hmore : r.nextBlockIndex < blocks.length)
    (n : Nat) :
    ∃ r',
      readNextBlock n r = .ok (BlockCursor.read blocks (offset blocks r.nextBlockIndex) n).1 r' ∧
      Tracks file index blocks r' (BlockCursor.read blocks (offset blocks r.nextBlockIndex) n).2 ∧
        Frame r r' ∧
        Advance index blocks r r' := by
  obtain ⟨p, hin⟩ := h.inner
  have hstart : refillStart index r = some r.nextBlockIndex := by
    rw [refillStart, hnone]
    simp only [hleft, heof, hempty, ne_eq, not_true, Bool.false_eq_true, or_self, if_false]
  obtain ⟨hlimit, hfit, hbatch⟩ := hclean _ hstart hmore
  have husage : ∀ limit, r.readaheadMemoryLimit = some limit → r.totalMemoryUsage < limit := by
    intro limit hcase
    have hbelow := hlimit limit hcase
    rw [refillUsage, hnone] at hbelow
    rw [totalMemoryUsage, readaheadMemoryUsage, hempty, List.map_nil, List.sum_nil, Nat.add_zero]
    exact hbelow
  have hstop : r.nextBlockIndex < batchStop blocks r r.nextBlockIndex := by
    have := h.readaheadSize
    rw [batchStop]
    omega
  obtain ⟨q, hfill⟩ :=
    fillReadahead_clean hd hin h.isPgzf h.index_eq hempty h.sound husage h.readaheadSize hmore
      hfit hbatch
  have hrefill : Frame r { r with
      inner := ⟨file, q, []⟩
      readahead := blocks[r.nextBlockIndex] :: (blocks.drop (r.nextBlockIndex + 1)).take
        (batchStop blocks r r.nextBlockIndex - (r.nextBlockIndex + 1))
      nextBlockIndex := batchStop blocks r r.nextBlockIndex
      blockCache :=
        refillCache blocks r.blockCache r.nextBlockIndex (batchStop blocks r r.nextBlockIndex) } :=
    ⟨rfl, rfl, capacity_refillCache _ _ _ _, hnone, fun _ => Nat.le_of_lt hstop,
      fun i hi => lookup_refillCache_ne_none hi⟩
  obtain ⟨r', hserve, htracks, hframe, hkept, hserved⟩ :=
    serveNext_tracks hd ⟨q, rfl⟩ (by exact h.isPgzf) (by exact h.index_eq)
      (by exact h.readaheadSize) (sound_refillCache h.sound (Nat.min_le_left _ _))
      hrefill.pendingSeek (by exact heof) hmore hstop (Nat.min_le_left _ _) rfl n
  rw [readNextBlock, Program.bind_ok (Program.get_apply _)]
  simp only [h.isPgzf, if_true]
  rw [Program.bind_ok (serveNext_nil hempty n)]
  simp only
  rw [Program.bind_ok hfill, Program.bind_ok hserve]
  simp only [Program.pure_apply]
  exact ⟨r', rfl, htracks, hrefill.trans hframe, .inr ⟨hstart, hmore, hkept⟩,
    fun hnil => absurd hnil hserved⟩

theorem readNextBlock_end (hd : Describes D file index blocks) {r : PgzfReader D} {pos : Nat}
    (h : Tracks file index blocks r pos) (hnone : r.pendingSeek = none)
    (hplaced : Positioned blocks r pos r.nextBlockIndex) (hend : pos = blocks.flatten.length)
    (hnextEnd : r.nextBlockIndex = blocks.length) {n : Nat} (hn : n ≠ 0) :
    ∃ r', readNextBlock n r = .ok (BlockCursor.read blocks pos n).1 r' ∧
      Tracks file index blocks r' (BlockCursor.read blocks pos n).2 ∧ Frame r r' ∧
        Advance index blocks r r' := by
  have hempty : r.readahead = [] := by
    rw [hplaced.queue, Nat.sub_self, List.take_zero]
  have hnil : (BlockCursor.read blocks pos n).1 = [] :=
    (read_fst_eq_nil_iff (Nat.pos_of_ne_zero hn)).mpr (by omega)
  obtain ⟨eof, hfill⟩ := fillReadahead_end hd h.isPgzf h.index_eq (Nat.le_of_eq hnextEnd.symm)
  rw [readNextBlock, Program.bind_ok (Program.get_apply _)]
  simp only [h.isPgzf, if_true]
  rw [Program.bind_ok (serveNext_nil hempty n)]
  simp only
  rw [Program.bind_ok hfill, Program.bind_ok (serveNext_nil (by exact hempty) n)]
  simp only
  rw [Program.bind_ok (Program.modify_apply _ _), Program.pure_apply, read_snd, hnil,
    List.length_nil, Nat.add_zero]
  refine ⟨_, rfl, ?_, ⟨rfl, rfl, rfl, hnone, fun _ => Nat.le_refl _, fun i hi => .inr hi⟩,
    .inl ⟨rfl, rfl⟩, fun hnil => ⟨hnil, rfl⟩⟩
  refine ⟨h.inner, h.isPgzf, h.index_eq, h.readaheadSize, h.sound, h.pos_le, ?_,
    fun _ => ⟨r.nextBlockIndex, ?_⟩⟩
  · intro target htarget
    exact absurd (hnone.symm.trans htarget) (by simp)
  · exact ⟨hplaced.le_next, hplaced.next_le, hplaced.queue, hplaced.offset_eq, hplaced.current,
      fun _ => hend⟩

/-- With the current block used up, the next block answers. -/
theorem readNextBlock_placed (hd : Describes D file index blocks) {r : PgzfReader D} {pos j : Nat}
    (h : Tracks file index blocks r pos) (hnone : r.pendingSeek = none)
    (hclean : CleanRefill index blocks r) (hleft : ¬ r.currentPos < r.currentBlock.length)
    (heof : r.eof = false) (hplaced : Positioned blocks r pos j) (hpos : pos = offset blocks j)
    {n : Nat} (hn : n ≠ 0) :
    ∃ r', readNextBlock n r = .ok (BlockCursor.read blocks pos n).1 r' ∧
      Tracks file index blocks r' (BlockCursor.read blocks pos n).2 ∧ Frame r r' ∧
        Advance index blocks r r' := by
  by_cases hqueue : j < r.nextBlockIndex
  · -- the queue holds block `j`
    have hj : j < blocks.length := Nat.lt_of_lt_of_le hqueue hplaced.next_le
    have hfront := hplaced.queue
    rw [List.drop_eq_getElem_cons hj, show r.nextBlockIndex - j = (r.nextBlockIndex - (j + 1)) +
      1 by omega, List.take_succ_cons] at hfront
    obtain ⟨r', hserve, htracks, hframe, hkept, hserved⟩ :=
      serveNext_tracks hd h.inner h.isPgzf h.index_eq
        h.readaheadSize h.sound hnone heof hj hqueue hplaced.next_le hfront n
    rw [readNextBlock, Program.bind_ok (Program.get_apply _)]
    simp only [h.isPgzf, if_true]
    rw [Program.bind_ok hserve, hpos]
    simp only [Program.pure_apply]
    exact ⟨r', rfl, htracks, hframe, .inl hkept, fun hnil => absurd hnil hserved⟩
  · obtain rfl : j = r.nextBlockIndex := Nat.le_antisymm hplaced.le_next (by omega)
    have hempty : r.readahead = [] := by
      rw [hplaced.queue, Nat.sub_self, List.take_zero]
    by_cases hmore : r.nextBlockIndex < blocks.length
    · rw [hpos]
      exact readNextBlock_refill hd h hnone hclean hleft heof hempty hmore n
    · have hnextEnd : r.nextBlockIndex = blocks.length := Nat.le_antisymm hplaced.next_le (by omega)
      have hend : pos = blocks.flatten.length := by
        rw [hpos, hnextEnd, offset_length]
      exact readNextBlock_end hd h hnone hplaced hend hnextEnd hn

/-- With no seek pending, a read with a buffer answers as the cursor does. -/
theorem read_placed (hd : Describes D file index blocks) {r : PgzfReader D} {pos : Nat}
    (h : Tracks file index blocks r pos) (hnone : r.pendingSeek = none)
    (hclean : CleanRefill index blocks r) {n : Nat} (hn : n ≠ 0) :
    ∃ r', PgzfReader.read n r = .ok (BlockCursor.read blocks pos n).1 r' ∧
      Tracks file index blocks r' (BlockCursor.read blocks pos n).2 ∧ Frame r r' ∧
        Advance index blocks r r' := by
  obtain ⟨j, hplaced⟩ := h.placed hnone
  have hle := read_snd_le n h.pos_le
  rw [PgzfReader.read, if_neg hn, Program.bind_ok (executePendingSeek_none hnone),
    Program.bind_ok (Program.get_apply _)]
  by_cases hleft : r.currentPos < r.currentBlock.length
  · obtain ⟨hout, hnext⟩ := serve_current (n := n) hplaced hleft h.pos_le
    simp only [hleft, if_true]
    rw [Program.bind_ok (Program.set_apply _ _), Program.pure_apply, hout]
    refine ⟨_, rfl, ⟨h.inner, h.isPgzf, h.index_eq, h.readaheadSize, h.sound, hle, ?_,
      fun _ => ⟨j, hnext⟩⟩, ?_, .inl ⟨rfl, rfl⟩, fun hnil => ⟨hnil, rfl⟩⟩
    · intro target htarget
      exact absurd (hnone.symm.trans htarget) (by simp)
    · exact ⟨rfl, rfl, rfl, hnone, fun _ => Nat.le_refl _, fun i hi => .inr hi⟩
  · -- the current block is used up: the position is where block `j` begins
    have hpos : pos = offset blocks j := by
      have := hplaced.offset_eq
      omega
    simp only [hleft, if_false]
    by_cases heof : r.eof = true
    · have hend := hplaced.eof heof
      have hnil : (BlockCursor.read blocks pos n).1 = [] :=
        (read_fst_eq_nil_iff (Nat.pos_of_ne_zero hn)).mpr (by omega)
      simp only [heof, if_true, Program.pure_apply, hnil]
      refine ⟨r, rfl, ?_, ?_, .inl ⟨rfl, rfl⟩, fun hnil => ⟨hnil, rfl⟩⟩
      · rw [read_snd, hnil, List.length_nil, Nat.add_zero]
        exact h
      · exact ⟨rfl, rfl, rfl, hnone, fun _ => Nat.le_refl _, fun i hi => .inr hi⟩
    · simp only [heof, if_false, Bool.false_eq_true]
      exact readNextBlock_placed hd h hnone hclean hleft (by simpa using heof) hplaced hpos hn

theorem read_tracks (hd : Describes D file index blocks) {r : PgzfReader D} {pos : Nat}
    (h : Tracks file index blocks r pos) (hclean : CleanRefill index blocks r) {n : Nat}
    (hn : n ≠ 0) :
    ∃ r', PgzfReader.read n r = .ok (BlockCursor.read blocks pos n).1 r' ∧
      Tracks file index blocks r' (BlockCursor.read blocks pos n).2 ∧ Frame r r' := by
  cases hpending : r.pendingSeek with
  | none =>
    obtain ⟨r', hread, htracks, hframe, -⟩ := read_placed hd h hpending hclean hn
    exact ⟨r', hread, htracks, hframe⟩
  | some target =>
    obtain ⟨mid, hseek, hmid, hframe, hserved⟩ := executePendingSeek_tracks hd h hpending hclean
    -- behind the seek no refill is needed
    have hquiet : CleanRefill index blocks mid := by
      intro start hstart
      rw [refillStart, hframe.pendingSeek] at hstart
      rcases hserved with hleft | ⟨heof, -⟩
      · simp [hleft] at hstart
      · simp [heof] at hstart
    obtain ⟨r', hread, htracks, hframe', -⟩ := read_placed hd hmid hframe.pendingSeek hquiet hn
    exact ⟨r', (read_of_executePendingSeek hseek hframe.pendingSeek hn).trans hread, htracks,
      hframe.trans hframe'⟩

theorem read_zero (r : PgzfReader D) : PgzfReader.read 0 r = .ok [] r := by
  rw [PgzfReader.read, if_pos rfl, Program.pure_apply]

theorem seekToByte_tracks {r : PgzfReader D} {pos target : Nat} (h : Tracks file index blocks r pos)
    (htarget : target ≤ blocks.flatten.length) :
    ∃ r', seekToByte target r = .ok () r' ∧ Tracks file index blocks r' target ∧
      r'.readaheadSize = r.readaheadSize ∧ r'.readaheadMemoryLimit = r.readaheadMemoryLimit ∧
      r'.blockCache = r.blockCache := by
  rw [seekToByte, Program.bind_ok (Program.get_apply _)]
  simp only [h.isPgzf, Bool.not_true, Bool.false_eq_true, if_false, Program.set_apply]
  refine ⟨_, rfl, ⟨h.inner, rfl, h.index_eq, h.readaheadSize, h.sound, htarget, ?_, by simp⟩,
    rfl, rfl, rfl⟩
  intro t ht
  exact ⟨(Option.some.inj ht).symm, rfl, rfl⟩

end Pgzf
