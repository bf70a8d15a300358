import Pgzf.Seeking

/-!
# Reading ranges of blocks

`read_blocks` reads the raw blocks of a range one after another, decompresses them, and only then
gives up what was served and queued. Where it succeeds, reading goes on behind the range, unless the
end of the batch that comes next does not fit into 64 bits.
-/

namespace Pgzf

open PgzfReader PgzfIndex Program BlockCursor

variable {D : Deps} {file : Bytes} {index : PgzfIndex} {raws blocks : List Bytes}
  {r r' : PgzfReader D}

/-! ### Ranges of a written file -/

/-- The loop of `read_blocks` collects what the loop of a refill does, without the numbers. -/
theorem readBlocksLoop_of_readRange {fuel count : Nat} {allRaw out : List (Nat × Bytes × Nat)}
    {ended : Bool} (h : readRange fuel count allRaw r = .ok (out, ended) r') :
    readBlocksLoop fuel count (allRaw.map Prod.snd) r = .ok (out.map Prod.snd) r' := by
  induction fuel generalizing r count allRaw with
  | zero => exact absurd h (by simp [readRange])
  | succ fuel ih =>
    rw [readRange] at h
    rw [readBlocksLoop]
    split at h
    · rename_i hzero
      obtain ⟨hsame, rfl⟩ := EStateM.Result.ok.inj h
      obtain ⟨rfl, -⟩ := Prod.mk.inj hsame
      rw [if_pos hzero, pure_apply]
    · rename_i hmore
      rw [if_neg hmore]
      obtain ⟨found, mid, hread, hrest⟩ := of_bind_ok h
      rw [bind_ok (Prog.of_intoIo_ok hread)]
      cases found with
      | none =>
        obtain ⟨hsame, rfl⟩ := EStateM.Result.ok.inj hrest
        obtain ⟨rfl, -⟩ := Prod.mk.inj hsame
        rfl
      | some block =>
        simp only at hrest ⊢
        split at hrest
        · rename_i hidx
          rw [if_pos hidx]
          exact ih hrest
        · rename_i hdata
          rw [if_neg hdata]
          rw [bind_ok (get_apply _)] at hrest
          have hloop := ih hrest
          rwa [List.map_append] at hloop

theorem decompress_of_decompressAll {allRaw : List (Nat × Bytes × Nat)} {datas : List (Nat × Bytes)}
    (h : decompressAll D allRaw = .ok datas) :
    (allRaw.map Prod.snd).mapM (fun x => decompressRawBlockWith D x.1 x.2) =
      .ok (datas.map Prod.snd) := by
  induction allRaw generalizing datas with
  | nil =>
    obtain rfl := Except.ok.inj h
    rfl
  | cons entry rest ih =>
    obtain ⟨data, others, hdata, hrest, rfl⟩ := of_decompressAll_cons h
    rw [List.map_cons, List.mapM_cons, hdata, ih hrest]
    rfl

theorem map_snd_numbered (blocks : List Bytes) {start stop : Nat} (hstop : stop ≤ blocks.length) :
    (numbered blocks (List.range' start (stop - start))).map Prod.snd = (blocks.drop start).take
      (stop - start) := by
  rw [numbered, List.map_map]
  exact range'_getD blocks hstop

def rangeData (blocks : List Bytes) (start count : Nat) : Bytes :=
  ((blocks.drop start).take count).flatten

/-- The reader behind `read_blocks`, in front of block `next`. -/
def PgzfReader.restarted (r : PgzfReader D) (s : Source) (next : Nat) : PgzfReader D :=
  { r with
    inner := s, currentBlock := [], currentPos := 0, eof := false,
    pendingSeek := none, readahead := []
    nextBlockIndex := next }

theorem readBlocks_range (hpgzf : r.isPgzf = true) (hindex : r.index = some index)
    {start count offset : Nat}
    (hstart : start < index.blockCount) (hcount : 0 < count) (hsum : start + count < 2 ^ 64)
    (hoffset : index.compressedOffset start = some offset) :
    readBlocks start count r = (do
      onInner (Source.seekStart offset)
      modify fun r => { r with nextBlockIndex := start }
      let rawBatch ← readBlocksLoop ((← get).inner.bytes.length + 1)
        (min index.blockCount (start + count) - start) []
      let decompressed ← Prog.ofExcept (rawBatch.mapM fun x => decompressRawBlockWith D x.1 x.2)
      modify fun r => { r with
        currentBlock := [], currentPos := 0, eof := false, pendingSeek := none, readahead := [] }
      return decompressed.flatten : Prog (PgzfReader D) Bytes) r := by
  rw [readBlocks, bind_ok (get_apply _)]
  simp only [hpgzf, hindex, Bool.not_true, Bool.false_eq_true, if_false]
  rw [if_neg (Nat.not_le.mpr hstart), bind_ok (addU64_of_lt hsum r), if_neg (by omega)]
  simp only [hoffset, decompressBlocks_eq]

/-- On a file that the index describes, a range of blocks is read whole. -/
theorem OnFile.readBlocks_eq (hd : Describes D file index blocks) (h : OnFile file index blocks r)
    {start count : Nat}
    (hstart : start < blocks.length) (hcount : 0 < count) (hsum : start + count < 2 ^ 64) :
    ∃ q, PgzfReader.readBlocks start count r =
      .ok (rangeData blocks start count)
        (r.restarted ⟨file, q, []⟩ (min blocks.length (start + count))) := by
  obtain ⟨p, hin⟩ := h.inner
  obtain ⟨offset, hoffset, hholds⟩ := hd.holds start hstart
  have hlater := List.length_drop (i := start) (l := blocks)
  obtain ⟨raws, q, hrange, hall⟩ := readRange_holds hholds
    (r := { r with inner := ⟨file, offset, []⟩, nextBlockIndex := start }) rfl rfl rfl
    (show min blocks.length (start + count) - start ≤ (blocks.drop start).length by omega)
    (show (file.drop offset).length < file.length + 1 by rw [List.length_drop]; omega) []
  have hloop := readBlocksLoop_of_readRange hrange
  rw [List.map_nil, List.nil_append] at hloop
  have hdatas := decompress_of_decompressAll hall
  refine ⟨q, ?_⟩
  rw [readBlocks_range h.isPgzf h.index_eq (by rwa [hd.blockCount]) hcount hsum hoffset,
    bind_ok (onInner_seekStart hin offset), bind_ok (modify_apply _ _), bind_ok (get_apply _)]
  simp only [hd.blockCount]
  rw [bind_ok hloop, hdatas, bind_ok (Prog.ofExcept_ok _ _), bind_ok (modify_apply _ _), pure_apply,
    map_snd_numbered blocks (Nat.min_le_left _ _), rangeData,
    List.take_eq_take_iff.mpr (show min (min blocks.length (start + count) - start)
      (blocks.drop start).length = min count (blocks.drop start).length by omega)]
  simp only [PgzfReader.restarted, show start + (min blocks.length (start + count) - start) =
    min blocks.length (start + count) by omega]

/-! ### What `read_blocks` is for -/

/-- `read_blocks` returns the data of the range, and with nothing cached and no limit reading goes
on behind it. Of no blocks there is no data, and behind the last block there is an error; the reads
behind these are as before. -/
def ReadsBlocks (payload : Bytes) (blocks : List Bytes) (r : PgzfReader D) (start count : Nat) :
    Prop :=
  if blocks.length ≤ start then
    ∃ e r', PgzfReader.readBlocks start count r = .error (.error e) r' ∧ SameReads r' r
  else if count = 0 then
    ∃ r', PgzfReader.readBlocks start count r = .ok [] r' ∧ SameReads r' r
  else
    ∃ r', PgzfReader.readBlocks start count r = .ok (rangeData blocks start count) r' ∧
      (r.blockCache.capacity = 0 → r.readaheadMemoryLimit = none →
        Delivers r' (payload.drop (offset blocks (min blocks.length (start + count)))))

theorem readBlocks_beyond (hpgzf : r.isPgzf = true) (hindex : r.index = some index) {start : Nat}
    (hstart : index.blockCount ≤ start) (count : Nat) :
    readBlocks start count r = .error (.error (.seekBeyondEnd start index.blockCount)) r := by
  rw [readBlocks, bind_ok (get_apply _)]
  simp only [hpgzf, hindex, Bool.not_true, Bool.false_eq_true, if_false]
  rw [if_pos hstart]
  rfl

theorem readBlocks_zero (hpgzf : r.isPgzf = true) (hindex : r.index = some index) {start : Nat}
    (hstart : start < index.blockCount) (hsum : start < 2 ^ 64) :
    readBlocks start 0 r = .ok [] r := by
  rw [readBlocks, bind_ok (get_apply _)]
  simp only [hpgzf, hindex, Bool.not_true, Bool.false_eq_true, if_false]
  rw [if_neg (Nat.not_le.mpr hstart), bind_ok (addU64_of_lt hsum r), if_pos (by omega), pure_apply]

theorem not_delivers_of_overflow (hidle : r.pendingSeek = none) (hpgzf : r.isPgzf = true)
    (hindex : r.index = some index) (hused : r.currentBlock.length ≤ r.currentPos)
    (heof : r.eof = false) (hneeds : NeedsRefill index r)
    (hover : 2 ^ 64 ≤ r.nextBlockIndex + r.readaheadSize) (bytes : Bytes) : ¬ Delivers r bytes := by
  rintro ⟨count, hall⟩
  obtain ⟨r', hread⟩ := hall (List.replicate (count + 1) 1)
    (fun n hn => by rw [List.eq_of_mem_replicate hn]; exact Nat.one_pos)
    (by rw [List.length_replicate]; omega)
  rw [List.replicate_succ, readToEnd,
    bind_error (read_overflow hidle hpgzf hindex hused heof hneeds hover Nat.one_pos)] at hread
  exact absurd hread (by simp)

theorem OnFile.restarted (h : OnFile file index blocks r) (q next : Nat) :
    OnFile file index blocks (r.restarted ⟨file, q, []⟩ next) :=
  h.moved ⟨q, rfl⟩ rfl rfl rfl rfl (.nil rfl rfl rfl)

/-- What follows a range is delivered exactly where the end of its first batch can be counted. -/
theorem OnFile.restarted_delivers_iff (hd : Describes D file index blocks)
    (hcount : blocks.length < 2 ^ 63) (h : OnFile file index blocks r)
    (huncached : r.blockCache.capacity = 0) (hunlimited : r.readaheadMemoryLimit = none)
    {next : Nat} (hnext : next ≤ blocks.length) (q : Nat) :
    Delivers (r.restarted ⟨file, q, []⟩ next) (blocks.flatten.drop (offset blocks next)) ↔
      (next < blocks.length → next + r.readaheadSize < 2 ^ 64) := by
  have hfront := h.restarted q next
  constructor
  · intro hdelivers hlt
    by_contra hover
    refine not_delivers_of_overflow rfl hfront.isPgzf hfront.index_eq (Nat.le_refl _) rfl ?_
      (Nat.not_lt.mp hover) _ hdelivers
    refine ⟨rfl, fun limit hlimit => absurd (hunlimited.symm.trans hlimit) (by simp), ?_⟩
    rw [hd.blockCount]
    exact hlt
  · intro hfits
    exact (hfront.uninterrupted rfl rfl rfl rfl hnext hunlimited huncached hfits).delivers hd hcount

theorem OnFile.readsBlocks_iff (hd : Describes D file index blocks)
    (hcount : blocks.length < 2 ^ 63) (h : OnFile file index blocks r) {start count : Nat}
    (hsum : start + count < 2 ^ 64) :
    ReadsBlocks blocks.flatten blocks r start count ↔
      (r.blockCache.capacity = 0 → r.readaheadMemoryLimit = none → 0 < count →
      start + count < blocks.length → start + count + r.readaheadSize < 2 ^ 64) := by
  rw [ReadsBlocks]
  by_cases hstart : blocks.length ≤ start
  · rw [if_pos hstart]
    refine iff_of_true ?_ fun _ _ _ hlt => by omega
    exact ⟨_, r, readBlocks_beyond h.isPgzf h.index_eq (by rwa [hd.blockCount]) count, fun _ => rfl⟩
  rw [if_neg hstart]
  by_cases hzero : count = 0
  · subst hzero
    rw [if_pos rfl]
    refine iff_of_true ?_ fun _ _ hpos => absurd hpos (Nat.lt_irrefl 0)
    exact ⟨r, readBlocks_zero h.isPgzf h.index_eq (by rw [hd.blockCount]; omega) (by omega),
      fun _ => rfl⟩
  rw [if_neg hzero]
  obtain ⟨q, hread⟩ := h.readBlocks_eq hd (Nat.not_le.mp hstart) (Nat.pos_of_ne_zero hzero) hsum
  constructor
  · rintro ⟨r', hok, hdelivers⟩ huncached hunlimited - hlt
    obtain ⟨-, rfl⟩ := EStateM.Result.ok.inj (hread.symm.trans hok)
    have hiff := h.restarted_delivers_iff hd hcount huncached hunlimited
      (Nat.min_le_left blocks.length (start + count)) q
    rw [Nat.min_eq_right (Nat.le_of_lt hlt)] at hiff
    have hgoes := hdelivers huncached hunlimited
    rw [Nat.min_eq_right (Nat.le_of_lt hlt)] at hgoes
    exact hiff.mp hgoes hlt
  · intro hfits
    refine ⟨_, hread, fun huncached hunlimited => ?_⟩
    refine (h.restarted_delivers_iff hd hcount huncached hunlimited (Nat.min_le_left _ _) q).mpr
      fun hlt => ?_
    have hroom := hfits huncached hunlimited (Nat.pos_of_ne_zero hzero) (by omega)
    rw [Nat.min_eq_right (by omega)]
    exact hroom

open PgzfWriter in
/-- Exactly where `read_blocks` does what it is for. -/
theorem reads_blocks_iff {config : PgzfConfig} {calls : List WriteCall}
    (hw : Written D config calls file) {q : Nat} (hreach : Reachable ⟨file, q, []⟩ r)
    {start count : Nat} (hsum : start + count < 2 ^ 64) :
    ReadsBlocks (calls.flatMap WriteCall.bytes) (config.blocksOf (calls.flatMap WriteCall.bytes)) r
      start count ↔
      (r.blockCache.capacity = 0 → r.readaheadMemoryLimit = none → 0 < count →
        start + count < (config.blocksOf (calls.flatMap WriteCall.bytes)).length →
        start + count + r.readaheadSize < 2 ^ 64) := by
  obtain ⟨index, raws, hl, hon, hcount⟩ := hreach.written hw
  have hiff := hon.readsBlocks_iff hl.described hcount hsum
  rwa [flatten_blocksOf hw.blockSize_pos] at hiff

theorem reads_blocks_iff_sample :
    ReadsBlocks [97, 98, 99, 100, 101, 102, 103] [[97, 98], [99, 100], [101, 102],
      [103]] Stored.uncachedReader 1 2 :=
  (reads_blocks_iff Stored.written_sample Stored.reachable_uncached (by decide)).mpr (by decide)

/-- With a readahead of all blocks there can be, the
first block is read, and the read behind it panics. -/
theorem read_blocks_then_overflow :
    Written Stored.deps Stored.sampleConfig Stored.sampleWrites Stored.sampleFile ∧
      Reachable ⟨Stored.sampleFile, 0, []⟩ (Stored.uncachedReader.withReadahead (2 ^ 64 - 1)) ∧
      (∃ r' r'', PgzfReader.readBlocks 0 1 (Stored.uncachedReader.withReadahead (2 ^ 64 - 1)) =
        .ok [97, 98] r' ∧
        PgzfReader.read 4 r' = .error (.panic "attempt to add with overflow") r'') ∧
      ¬ ReadsBlocks [97, 98, 99, 100, 101, 102, 103] [[97, 98], [99, 100], [101, 102], [103]]
        (Stored.uncachedReader.withReadahead (2 ^ 64 - 1)) 0 1 := by
  have hreach : Reachable ⟨Stored.sampleFile,
      0, []⟩ (Stored.uncachedReader.withReadahead (2 ^ 64 - 1)) :=
    Stored.reachable_uncached.step (.setting (.withReadahead (by decide)))
  obtain ⟨index, raws, hl, hon, hcount⟩ := hreach.written Stored.written_sample
  obtain ⟨q, hread⟩ := hon.readBlocks_eq hl.described (show 0 < 4 by decide) (show 0 < 1 by decide)
    (by decide)
  have hfront := hon.restarted q 1
  have hneeds : NeedsRefill index
      ((Stored.uncachedReader.withReadahead (2 ^ 64 - 1)).restarted ⟨Stored.sampleFile, q,
          []⟩ 1) := by
    refine ⟨rfl, fun limit hlimit => ?_, ?_⟩
    · have hnone : (Stored.uncachedReader.withReadahead (2 ^ 64 - 1)).readaheadMemoryLimit = none :=
        rfl
      exact absurd (hnone.symm.trans hlimit) (by simp)
    · rw [hl.described.blockCount]
      exact show 1 < 4 by decide
  have hpanics := read_overflow rfl hfront.isPgzf hfront.index_eq (Nat.le_refl _) rfl hneeds
    (show 2 ^ 64 ≤ 1 + (2 ^ 64 - 1) by decide) (show 0 < 4 by decide)
  refine ⟨Stored.written_sample, hreach, ⟨_, _, hread, hpanics⟩, fun h => ?_⟩
  exact absurd ((hon.readsBlocks_iff hl.described hcount (by decide)).mp h rfl rfl (by decide)
    (by decide)) (by decide)

end Pgzf
