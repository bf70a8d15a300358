import Pgzf.Reachable

/-!
# Where seeks lead

`seek_to_block` moves the source and resets the number of the next block, `seek` takes the place
inside the current block for the current position, and a seek behind the end is noted like any other
and found out by the next read, which forgets it. What the reads behind these calls deliver is said
here for every state of a reader on a written file.
-/

namespace Pgzf

open PgzfReader PgzfIndex Program BlockCursor

variable {D : Deps} {file : Bytes} {index : PgzfIndex} {blocks : List Bytes} {r r' : PgzfReader D}

/-! ### Reading on -/

def SameReads (r r' : PgzfReader D) : Prop :=
  ∀ sizes : List Nat, outcome ((sizes.mapM fun n => Prog.attempt (PgzfReader.read n)) r) =
    outcome ((sizes.mapM fun n => Prog.attempt (PgzfReader.read n)) r')

/-- The reader stands at `pos` with nothing cached, no limit and no seek pending, and can count to
the end of its next batch. -/
structure Uninterrupted (file : Bytes) (index : PgzfIndex) (blocks : List Bytes) (r : PgzfReader D)
    (pos : Nat) : Prop where
  tracks : Tracks file index blocks r pos
  idle : r.pendingSeek = none
  unlimited : r.readaheadMemoryLimit = none
  uncached : r.blockCache.capacity = 0
  fits : r.nextBlockIndex < blocks.length → r.nextBlockIndex + r.readaheadSize < 2 ^ 64

theorem Uninterrupted.read (hd : Describes D file index blocks) (hcount : blocks.length < 2 ^ 63)
    {pos : Nat} (h : Uninterrupted file index blocks r pos) {n : Nat} (hn : 0 < n) :
    ∃ r', PgzfReader.read n r = .ok (BlockCursor.read blocks pos n).1 r' ∧
      Uninterrupted file index blocks r' (BlockCursor.read blocks pos n).2 := by
  have hclean : CleanRefill index blocks r := by
    intro start hstart hlt
    rw [refillStart, h.idle] at hstart
    simp only at hstart
    split at hstart
    · exact absurd hstart (by simp)
    · obtain rfl := Option.some.inj hstart
      have hbelow : BelowLimit r :=
        fun limit hlimit => absurd (h.unlimited.symm.trans hlimit) (by simp)
      exact ⟨hbelow, h.fits hlt, .inr (BlockCache.lookup_of_capacity_zero h.uncached _)⟩
  obtain ⟨r', hread, htracks, hframe, hadvance⟩ :=
    read_placed hd h.tracks h.idle hclean (Nat.ne_of_gt hn)
  refine ⟨r', hread, htracks, hframe.pendingSeek, hframe.readaheadMemoryLimit.trans h.unlimited,
    hframe.capacity.trans h.uncached, ?_⟩
  rw [hframe.readaheadSize]
  rcases hadvance.refill with ⟨hnext, -⟩ | ⟨-, hlt, hnext, -⟩
  · rw [hnext]
    exact h.fits
  · -- a batch that is not the last one has `readaheadSize` blocks
    have hfits := h.fits hlt
    rw [hnext, batchStop]
    omega

theorem Uninterrupted.delivers (hd : Describes D file index blocks)
    (hcount : blocks.length < 2 ^ 63) {pos : Nat} (h : Uninterrupted file index blocks r pos) :
    Delivers r (blocks.flatten.drop pos) := by
  refine ⟨(blocks.flatten.drop pos).length + 1, fun sizes hsizes hlen => ?_⟩
  exact readToEnd_of_read (fun _ _ _ hr hn => hr.read hd hcount hn) h hsizes
    (Nat.lt_of_succ_le hlen)

theorem OnFile.uninterrupted (h : OnFile file index blocks r) (hcurrent : r.currentBlock = [])
    (hqueue : r.readahead = []) (hidle : r.pendingSeek = none) (heof : r.eof = false)
    (hnext : r.nextBlockIndex ≤ blocks.length) (hunlimited : r.readaheadMemoryLimit = none)
    (huncached : r.blockCache.capacity = 0)
    (hfits : r.nextBlockIndex < blocks.length → r.nextBlockIndex + r.readaheadSize < 2 ^ 64) :
    Uninterrupted file index blocks r (offset blocks r.nextBlockIndex) := by
  refine ⟨⟨h.inner, h.isPgzf, h.index_eq, h.size_pos, h.sound, offset_le_length blocks _,
      ?_, fun _ =>
    ⟨r.nextBlockIndex, Nat.le_refl _, hnext, ?_, ?_, .inl hcurrent, ?_⟩⟩, hidle, hunlimited,
      huncached, hfits⟩
  · intro target htarget
    exact absurd (hidle.symm.trans htarget) (by simp)
  · rw [hqueue, Nat.sub_self, List.take_zero]
  · rw [hcurrent, List.length_nil, Nat.zero_sub, Nat.add_zero]
  · intro h
    exact absurd (heof.symm.trans h) (by simp)

/-! ### Seeking to a block -/

/-- The number of a block, counted from the front or, where it is negative, from the end. -/
def BlockNumber (count : Nat) (i : Int) : Prop := -(count : Int) ≤ i ∧ i < count

instance (count : Nat) (i : Int) : Decidable (BlockNumber count i) :=
  inferInstanceAs (Decidable (_ ∧ _))

theorem BlockNumber.resolved_lt {count : Nat} {i : Int} (h : BlockNumber count i) :
    resolvedBlock count i < count := by
  obtain ⟨hlo, hhi⟩ := h
  rw [resolvedBlock]
  split <;> omega

theorem seekBlock_of_blockNumber {σ : Type} (hd : Describes D file index blocks)
    (hcount : blocks.length < 2 ^ 63) {i : Int} (h : BlockNumber blocks.length i) (s : σ) :
    ∃ offset, index.seekBlock i s = .ok offset s := by
  have hlen : index.blocks.length = blocks.length := hd.blockCount
  obtain ⟨hlo, hhi⟩ := id h
  have hlt := h.resolved_lt
  obtain ⟨offset, hoffset⟩ := hd.compressedOffset_isSome (Nat.le_of_lt hlt)
  rw [compressedOffset] at hoffset
  refine ⟨offset, ?_⟩
  rw [resolvedBlock] at hlt hoffset
  rw [seekBlock]
  by_cases hneg : i < 0
  · rw [if_pos hneg] at hlt hoffset ⊢
    rw [if_neg (by omega), if_neg (by omega), hlen, bind_ok (pure_apply _ _),
      if_neg (Nat.not_le.mpr hlt)]
    simp only [hoffset, pure_apply]
  · rw [if_neg hneg] at hlt hoffset ⊢
    rw [hlen, bind_ok (pure_apply _ _), if_neg (Nat.not_le.mpr hlt)]
    simp only [hoffset, pure_apply]

theorem seekBlock_of_not_blockNumber {σ : Type} (hd : Describes D file index blocks) {i : Int}
    (h : ¬ BlockNumber blocks.length i) (hmin : i ≠ -2 ^ 63) (s : σ) :
    ∃ e, index.seekBlock i s = .error (.error e) s := by
  have hlen : index.blocks.length = blocks.length := hd.blockCount
  rw [BlockNumber, not_and_or] at h
  rw [seekBlock]
  by_cases hneg : i < 0
  · rw [if_pos hneg, if_neg hmin, if_pos (by omega), bind_error (throw_apply _ _)]
    exact ⟨_, rfl⟩
  · rw [if_neg hneg, bind_ok (pure_apply _ _), if_pos (by omega)]
    exact ⟨_, rfl⟩

theorem seekBlock_min {σ : Type} (index : PgzfIndex) (s : σ) :
    index.seekBlock (-2 ^ 63) s = .error (.panic "attempt to negate with overflow") s := by
  rw [seekBlock, if_pos (by decide), if_pos rfl, bind_error (throw_apply _ _)]

/-- What `seek_to_block` is for: from a block of the file on, reading delivers the data from there
to the end; any other number is an error, and the reads behind it are as before. -/
def SeeksToBlock (payload : Bytes) (blocks : List Bytes) (r : PgzfReader D) (i : Int) : Prop :=
  if BlockNumber blocks.length i then
    ∃ r', seekToBlock i r = .ok () r' ∧
      Delivers r' (payload.drop (offset blocks (resolvedBlock blocks.length i)))
  else
    ∃ e r', seekToBlock i r = .error (.error e) r' ∧ SameReads r' r

theorem OnFile.seekToBlock_apply (h : OnFile file index blocks r) (i : Int) :
    PgzfReader.seekToBlock i r = (do
      let offset ← index.seekBlock i
      onInner (Source.seekStart offset)
      modify fun r => { r with
        nextBlockIndex := 0
        currentBlock := []
        currentPos := 0
        eof := false
        pendingSeek := none
        readahead := [] } : Prog (PgzfReader D) Unit) r := by
  rw [PgzfReader.seekToBlock, bind_ok (get_apply _)]
  simp only [h.isPgzf, h.index_eq, Bool.not_true, Bool.false_eq_true, if_false]

/-- Behind `seek_to_block` everything is delivered from the front, whatever the block. -/
theorem OnFile.seekToBlock_delivers (hd : Describes D file index blocks)
    (hcount : blocks.length < 2 ^ 63) (h : OnFile file index blocks r)
    (huncached : r.blockCache.capacity = 0) (hunlimited : r.readaheadMemoryLimit = none) {i : Int}
    (hi : BlockNumber blocks.length i) :
    ∃ r', PgzfReader.seekToBlock i r = .ok () r' ∧ Delivers r' blocks.flatten := by
  obtain ⟨p, hin⟩ := h.inner
  obtain ⟨offset, hseek⟩ := seekBlock_of_blockNumber hd hcount hi r
  refine ⟨_, by rw [h.seekToBlock_apply, bind_ok hseek, bind_ok (onInner_seekStart hin offset),
    modify_apply], ?_⟩
  have hfront : OnFile file index blocks { r with
      inner := ⟨file, offset, []⟩, nextBlockIndex := 0, currentBlock := [], currentPos := 0
      eof := false, pendingSeek := none, readahead := [] } :=
        h.moved ⟨offset, rfl⟩ rfl rfl rfl rfl (.nil rfl rfl rfl)
  have hread :=
    hfront.uninterrupted rfl rfl rfl rfl (Nat.zero_le _) hunlimited huncached fun _ => by
      rw [Nat.zero_add]
      exact hfront.size_lt
  exact hread.delivers hd hcount

theorem OnFile.seeksToBlock_iff (hd : Describes D file index blocks)
    (hcount : blocks.length < 2 ^ 63) (h : OnFile file index blocks r)
    (huncached : r.blockCache.capacity = 0) (hunlimited : r.readaheadMemoryLimit = none) (i : Int) :
    SeeksToBlock blocks.flatten blocks r i ↔
      if BlockNumber blocks.length i then resolvedBlock blocks.length i = 0 else i ≠ -2 ^ 63 := by
  rw [SeeksToBlock]
  split
  · rename_i hi
    have hlt := hi.resolved_lt
    obtain ⟨r', hseek, hdelivers⟩ := h.seekToBlock_delivers hd hcount huncached hunlimited hi
    constructor
    · rintro ⟨r'', hseek', hwanted⟩
      obtain ⟨-, rfl⟩ := EStateM.Result.ok.inj (hseek.symm.trans hseek')
      -- nothing may be left out of the data
      have hsame := congrArg List.length (hdelivers.unique hwanted)
      rw [List.length_drop] at hsame
      have hfirst := hd.ne_nil _ (List.getElem_mem (show 0 < blocks.length by omega))
      have hone := offset_succ (show 0 < blocks.length by omega)
      rw [offset_zero, Nat.zero_add] at hone
      have hle := offset_le_length blocks 1
      have hpos := List.length_pos_iff.mpr hfirst
      by_contra hne
      have hmono := offset_mono blocks (show 1 ≤ resolvedBlock blocks.length i by omega)
      omega
    · intro hzero
      refine ⟨r', hseek, ?_⟩
      rwa [hzero, offset_zero, List.drop_zero]
  · rename_i hi
    constructor
    · rintro ⟨e, r', hseek, -⟩ rfl
      rw [h.seekToBlock_apply, bind_error (seekBlock_min index r)] at hseek
      exact absurd hseek (by simp)
    · intro hmin
      obtain ⟨e, herror⟩ := seekBlock_of_not_blockNumber hd hi hmin r
      exact ⟨e, r, by rw [h.seekToBlock_apply, bind_error herror], fun _ => rfl⟩

open PgzfWriter in
/-- `seek_to_block` leads to the first block only, and
refuses every number of no block but the least `i64`. -/
theorem seeks_to_block_iff {config : PgzfConfig} {calls : List WriteCall}
    (hw : Written D config calls file) {q : Nat} (hreach : Reachable ⟨file, q, []⟩ r)
    (huncached : r.blockCache.capacity = 0) (hunlimited : r.readaheadMemoryLimit = none) (i : Int) :
    SeeksToBlock (calls.flatMap WriteCall.bytes)
      (config.blocksOf (calls.flatMap WriteCall.bytes)) r i ↔
      i = 0 ∨ i = -((config.blocksOf (calls.flatMap WriteCall.bytes)).length : Int) ∨
        ¬ BlockNumber (config.blocksOf (calls.flatMap WriteCall.bytes)).length i ∧ i ≠ -2 ^ 63 := by
  obtain ⟨index, raws, hl, hon, hcount⟩ := hreach.written hw
  have hiff := hon.seeksToBlock_iff hl.described hcount huncached hunlimited i
  rw [flatten_blocksOf hw.blockSize_pos] at hiff
  rw [hiff]
  generalize (config.blocksOf (calls.flatMap WriteCall.bytes)).length = count at hcount ⊢
  by_cases hi : BlockNumber count i
  · rw [if_pos hi, resolvedBlock]
    rw [BlockNumber] at hi ⊢
    split <;> omega
  · rw [if_neg hi]
    rw [BlockNumber] at hi ⊢
    omega

namespace Stored

theorem written_sample : Written deps sampleConfig sampleWrites sampleFile := by
  obtain ⟨out, w, s', hrun, hbytes, -⟩ := sample_written
  exact ⟨by decide, by decide, inBounds_of_fits (by decide) (by decide) sample_withinLimits.fits,
    sample_withinLimits.addressable, sample_codec, out, w, hrun, hbytes⟩

theorem reachable_sample : Reachable ⟨sampleFile, 0, []⟩ (fresh deps sampleFile sampleIndex) := by
  obtain ⟨out, w, s', hrun, hbytes, hnew⟩ := sample_written
  rw [hbytes] at hnew
  exact ⟨_, s', hnew, .refl⟩

def uncachedReader : PgzfReader deps := (fresh deps sampleFile sampleIndex).withBlockCache 0

theorem reachable_uncached : Reachable ⟨sampleFile, 0, []⟩ uncachedReader := by
  obtain ⟨reader, s', hnew, hsteps⟩ := reachable_sample
  exact ⟨reader, s', hnew, hsteps.tail (.setting (.withBlockCache _ 0))⟩

end Stored

theorem seeks_to_block_iff_sample :
    SeeksToBlock [97, 98, 99, 100, 101, 102, 103] [[97, 98], [99, 100], [101, 102],
      [103]] Stored.uncachedReader (-4) :=
  (seeks_to_block_iff Stored.written_sample Stored.reachable_uncached rfl rfl (-4)).mpr (by decide)

/-- Behind a seek to the second block the first one is delivered. -/
theorem seek_to_block_starts_over :
    Written Stored.deps Stored.sampleConfig Stored.sampleWrites Stored.sampleFile ∧
      Reachable ⟨Stored.sampleFile, 0, []⟩ Stored.uncachedReader ∧
        Stored.uncachedReader.blockCache.capacity = 0 ∧
      Stored.uncachedReader.readaheadMemoryLimit = none ∧
      (∃ r' r'', seekToBlock 1 Stored.uncachedReader = .ok () r' ∧
        readToEnd [4, 4, 4, 4, 4] r' = .ok (some [97, 98, 99, 100, 101, 102, 103]) r'') ∧
      ¬ SeeksToBlock [97, 98, 99, 100, 101, 102, 103] [[97, 98], [99, 100], [101, 102],
        [103]] Stored.uncachedReader 1 := by
  have hread : outcome ((do
      seekToBlock 1
      readToEnd [4, 4, 4, 4, 4] : Prog (PgzfReader Stored.deps) (Option Bytes))
        Stored.uncachedReader) = .ok (some [97, 98, 99, 100, 101, 102, 103]) := by
    decide +kernel
  obtain ⟨r'', hrun⟩ := exists_of_outcome hread
  obtain ⟨_, r', hseek, hrest⟩ := of_bind_ok hrun
  refine ⟨Stored.written_sample, Stored.reachable_uncached, rfl, rfl, ⟨r', r'', hseek, hrest⟩, ?_⟩
  obtain ⟨index, raws, hl, hon, hcount⟩ := Stored.reachable_uncached.written Stored.written_sample
  exact fun h => absurd ((hon.seeksToBlock_iff hl.described hcount rfl rfl 1).mp h) (by decide)

/-! ### The logical position -/

/-- A session that has come to a reader, and its logical position: the last seek target and the
bytes delivered since. The first byte of its block is the target of `seek_to_block`, and of
`read_blocks` where it delivers any. -/
inductive PositionAt (blocks : List Bytes) (s : Source) : PgzfReader D → Nat → Prop
  | new {r : PgzfReader D} {s' : Source} : PgzfReader.new D s = .ok r s' → PositionAt blocks s r 0
  | setting {r r' : PgzfReader D} {p : Nat} : PositionAt blocks s r p → SettingStep r r' →
    PositionAt blocks s r' p
  | read {r r' : PgzfReader D} {p n : Nat} {out : Bytes} : PositionAt blocks s r p →
    PgzfReader.read n r = .ok out r' → PositionAt blocks s r' (p + out.length)
  | seekToByte {r r' : PgzfReader D} {p target : Nat} : PositionAt blocks s r p →
    PgzfReader.seekToByte target r = .ok () r' → PositionAt blocks s r' target
  | seek {r r' : PgzfReader D} {p target : Nat} {pos : SeekFrom} : PositionAt blocks s r p →
    PgzfReader.seek pos r = .ok target r' → PositionAt blocks s r' target
  | seekToBlock {r r' : PgzfReader D} {p : Nat} {i : Int} : PositionAt blocks s r p →
    PgzfReader.seekToBlock i r = .ok () r' →
      PositionAt blocks s r' (offset blocks (resolvedBlock blocks.length i))
  | readBlocks {r r' : PgzfReader D} {p start count : Nat} {out : Bytes} : PositionAt blocks s r p →
    PgzfReader.readBlocks start count r = .ok out r' →
      PositionAt blocks s r' (if count = 0 then p else offset blocks start + out.length)
  | readOneRawBlock {r r' : PgzfReader D} {p : Nat} {block : Option RawBlock} :
    PositionAt blocks s r p → PgzfReader.readOneRawBlock r = .ok block r' → PositionAt blocks s r' p
  | failed {r r' : PgzfReader D} {p : Nat} {call : BlockCall} {e : PgzfError} :
    PositionAt blocks s r p → call.run r = .error (.error e) r' → PositionAt blocks s r' p

theorem Reachable.step {s : Source} (h : Reachable s r) (hstep : ReaderStep r r') :
    Reachable s r' := by
  obtain ⟨reader, s', hnew, hsteps⟩ := h
  exact ⟨reader, s', hnew, hsteps.tail hstep⟩

theorem Reachable.call {s : Source} (h : Reachable s r) (call : BlockCall)
    (hrun : call.run r = .ok () r') : Reachable s r' :=
  h.step (.call call (Prog.attempt_ok hrun))

theorem PositionAt.reachable {s : Source} {p : Nat} (h : PositionAt blocks s r p) :
    Reachable s r := by
  induction h with
  | new hnew => exact ⟨_, _, hnew, .refl⟩
  | setting _ hstep ih => exact ih.step (.setting hstep)
  | @read r r' p n out _ hrun ih =>
    exact ih.call (.read n) (by rw [BlockCall.run, bind_ok hrun, pure_apply])
  | @seekToByte r r' p target _ hrun ih => exact ih.call (.seekToByte target) hrun
  | @seek r r' p target pos _ hrun ih =>
    exact ih.call (.seek pos) (by rw [BlockCall.run, bind_ok hrun, pure_apply])
  | @seekToBlock r r' p i _ hrun ih => exact ih.call (.seekToBlock i) hrun
  | @readBlocks r r' p start count out _ hrun ih =>
    exact ih.call (.readBlocks start count) (by rw [BlockCall.run, bind_ok hrun, pure_apply])
  | readOneRawBlock _ hrun ih =>
    exact ih.call .readOneRawBlock (by rw [BlockCall.run, bind_ok hrun, pure_apply])
  | @failed r r' p call e _ hrun ih => exact ih.step (.call call (Prog.attempt_error hrun))

theorem PositionAt.step {s : Source} {p : Nat} (h : PositionAt blocks s r p)
    (hstep : ReaderStep r r') :
    ∃ p', PositionAt blocks s r' p' := by
  cases hstep with
  | setting hsetting => exact ⟨p, h.setting hsetting⟩
  | call call hcall =>
    rcases Prog.of_attempt_ok hcall with ⟨u, -, hrun⟩ | ⟨e, -, hrun⟩
    · cases call with
      | read n =>
        obtain ⟨out, _, hread, hpure⟩ := of_bind_ok hrun
        obtain ⟨-, rfl⟩ := EStateM.Result.ok.inj hpure
        exact ⟨_, h.read hread⟩
      | seekToByte target => exact ⟨_, h.seekToByte hrun⟩
      | seekToBlock i => exact ⟨_, h.seekToBlock hrun⟩
      | seek pos =>
        obtain ⟨target, _, hseek, hpure⟩ := of_bind_ok hrun
        obtain ⟨-, rfl⟩ := EStateM.Result.ok.inj hpure
        exact ⟨_, h.seek hseek⟩
      | readBlocks start count =>
        obtain ⟨out, _, hread, hpure⟩ := of_bind_ok hrun
        obtain ⟨-, rfl⟩ := EStateM.Result.ok.inj hpure
        exact ⟨_, h.readBlocks hread⟩
      | readOneRawBlock =>
        obtain ⟨block, _, hread, hpure⟩ := of_bind_ok hrun
        obtain ⟨-, rfl⟩ := EStateM.Result.ok.inj hpure
        exact ⟨p, h.readOneRawBlock hread⟩
    · exact ⟨p, h.failed hrun⟩

theorem Reachable.positionAt {s : Source} (h : Reachable s r) (blocks : List Bytes) :
    ∃ p, PositionAt blocks s r p := by
  obtain ⟨reader, s', hnew, hsteps⟩ := h
  induction hsteps with
  | refl => exact ⟨0, .new hnew⟩
  | tail _ hstep ih =>
    obtain ⟨p, hp⟩ := ih
    exact hp.step hstep

/-! ### The `Seek` trait -/

/-- The place a seek asks for, in `total` bytes of data and from position `p`. -/
def PgzfReader.SeekFrom.target (total p : Nat) : SeekFrom → Int
  | .start n => n
  | .fromEnd d => total + d
  | .current d => p + d

def PgzfReader.SeekFrom.InRange : SeekFrom → Prop
  | .start n => n < 2 ^ 64
  | .fromEnd d => -2 ^ 63 ≤ d ∧ d < 2 ^ 63
  | .current d => -2 ^ 63 ≤ d ∧ d < 2 ^ 63

/-- The next read starts at `pos`: it delivers bytes
from there, and none at the end of the data only. -/
def ReadsFrom (payload : Bytes) (pos : Nat) (r : PgzfReader D) : Prop :=
  ∀ n, 0 < n → ∃ out r', PgzfReader.read n r = .ok out r' ∧ out <+: (payload.drop pos).take n ∧
    (out = [] → payload.length ≤ pos)

/-- What `Seek` is for: the place asked for is returned, and the next read starts there where it is
in the data; a place that is no `u64` is an error, and the reads behind it are as before. -/
def SeeksTo (payload : Bytes) (p : Nat) (pos : SeekFrom) (r : PgzfReader D) : Prop :=
  if 0 ≤ pos.target payload.length p ∧ pos.target payload.length p < 2 ^ 64 then
    ∃ r', PgzfReader.seek pos r = .ok (pos.target payload.length p).toNat r' ∧
      (pos.target payload.length p ≤ payload.length →
        ReadsFrom payload (pos.target payload.length p).toNat r')
  else
    ∃ e r', PgzfReader.seek pos r = .error (.error e) r' ∧ SameReads r' r

/-- A refill of the next read is not stopped by the memory
limit, and the end of its batch fits into 64 bits. -/
def RefillRuns (r : PgzfReader D) : Prop :=
  ∀ index start, r.index = some index → refillStart index r = some start →
    start < index.blockCount → BelowLimit r ∧ start + r.readaheadSize < 2 ^ 64

/-- When a seek does what it is for: the place is a `u64`; the sum of
the total or of the place inside the current block with the offset is an
`i64`, and that place is the position; and the refill behind it runs. -/
structure SeekHolds (total p : Nat) (pos : SeekFrom) (r : PgzfReader D) : Prop where
  nonneg : 0 ≤ pos.target total p
  lt : pos.target total p < 2 ^ 64
  fromEnd : ∀ d, pos = .fromEnd d → (total : Int) + d < 2 ^ 63
  current : ∀ d, pos = .current d → r.currentPos = p % 2 ^ 64 ∧ (r.currentPos : Int) + d < 2 ^ 63
  refill : pos.target total p ≤ total → RefillRuns (r.noted (pos.target total p).toNat)

theorem readsFrom_left (hidle : r.pendingSeek = none) {i skip : Nat} (hi : i < blocks.length)
    (hcurrent : r.currentBlock = blocks[i]) (hpos : r.currentPos = skip)
    (hskip : skip < blocks[i].length) :
    ReadsFrom blocks.flatten (offset blocks i + skip) r := by
  intro n hn
  have hread := read_left hidle (by rw [hcurrent, hpos]; exact hskip) hn
  have hprefix := segment_prefix_drop blocks (offset blocks i + skip)
  rw [segment_of_block hi hskip] at hprefix
  refine ⟨_, _, hread, ?_, fun hnil => ?_⟩
  · rw [hcurrent, hpos]
    exact hprefix.take n
  · have hlen := congrArg List.length hnil
    rw [List.length_take, List.length_drop, hcurrent, hpos, List.length_nil] at hlen
    omega

/-- A seek into the data, and whether the reader can go on from there. -/
theorem OnFile.readsFrom_noted (hd : Describes D file index blocks) (h : OnFile file index blocks r)
    {target : Nat} (htarget : target ≤ blocks.flatten.length) :
    ReadsFrom blocks.flatten target (r.noted target) ↔ RefillRuns (r.noted target) := by
  have hnoted := h.noted target
  have hruns : ∀ {start}, refillStart index (r.noted target) = some start →
      (RefillRuns (r.noted target) ↔
      (start < index.blockCount → BelowLimit (r.noted target) ∧
          start + r.readaheadSize < 2 ^ 64)) := by
    intro start hstart
    refine ⟨fun hruns => hruns index start h.index_eq hstart,
      fun hruns index' start' hindex hstart' => ?_⟩
    obtain rfl := Option.some.inj (h.index_eq.symm.trans hindex)
    obtain rfl := Option.some.inj (hstart.symm.trans hstart')
    exact hruns
  rcases hnoted.executePendingSeek_cases hd rfl with ⟨hbeyond, -⟩ | ⟨i, skip, p, hseek, hi,
    rfl, hend, ⟨hlt, hskip, hlookup, hrun⟩ | ⟨hinside, hlookup, hrun⟩⟩
  · exact absurd htarget (Nat.not_le.mpr hbeyond)
  · -- the block is cached, and nothing is refilled
    refine iff_of_true (fun n hn => ?_) fun index' start hindex hstart => ?_
    · rw [read_of_executePendingSeek hrun rfl (Nat.ne_of_gt hn)]
      exact readsFrom_left rfl hlt rfl rfl hskip n hn
    · obtain rfl := Option.some.inj (h.index_eq.symm.trans hindex)
      rw [refillStart_pending rfl hseek, hlookup] at hstart
      exact absurd hstart (by simp)
  · have hstart : refillStart index (r.noted (offset blocks i + skip)) = some i := by
      rw [refillStart_pending rfl hseek, hlookup]
      rfl
    rw [hruns hstart]
    have hto := hnoted.movedTo p i
    have hneeds :=
      needsRefill_movedTo index (r := r.noted (offset blocks i + skip)) rfl ⟨file, p, []⟩ i
    rcases hto.serveTarget_cases hd rfl skip with ⟨hidle, hserve⟩ | ⟨hneed, hfit, hlt, q',
      hserve⟩ | ⟨hneed, hover, hserve⟩
    · -- nothing is fetched, and the reads are at the end
      rw [hserve] at hrun
      have hread : ∀ n, 0 < n → PgzfReader.read n (r.noted (offset blocks i + skip)) =
          .ok [] { (r.noted (offset blocks i + skip)).movedTo ⟨file, p, []⟩ i
              with eof := true } := by
        intro n hn
        rw [read_of_executePendingSeek hrun rfl (Nat.ne_of_gt hn)]
        exact read_eof rfl (Nat.le_refl _) rfl hn
      rw [hneeds, not_and] at hidle
      by_cases hlt : i < blocks.length
      · have hinside := hinside hlt
        refine iff_of_false (fun hreads => ?_) fun hruns => ?_
        · obtain ⟨out, r', hok, -, hnone⟩ := hreads 1 Nat.one_pos
          obtain ⟨rfl, -⟩ := EStateM.Result.ok.inj ((hread 1 Nat.one_pos).symm.trans hok)
          have hlast := hnone rfl
          have hnext := offset_le_length blocks (i + 1)
          rw [offset_succ hlt] at hnext
          omega
        · rw [hd.blockCount] at hruns hidle
          exact hidle (hruns hlt).1 hlt
      · obtain rfl : i = blocks.length := Nat.le_antisymm hi (Nat.not_lt.mp hlt)
        refine iff_of_true (fun n hn => ⟨[], _, hread n hn, List.nil_prefix, fun _ => ?_⟩)
          fun hlt' => ?_
        · rw [offset_length]
          exact Nat.le_add_right _ _
        · rw [hd.blockCount] at hlt'
          exact absurd hlt' hlt
    · rw [hserve] at hrun
      refine iff_of_true (fun n hn => ?_) fun _ => ⟨(hneeds.mp hneed).1, hfit⟩
      rw [read_of_executePendingSeek hrun rfl (Nat.ne_of_gt hn)]
      exact readsFrom_left rfl hlt rfl rfl (hinside hlt) n hn
    · rw [hserve] at hrun
      refine iff_of_false (fun hreads => ?_) fun hruns => ?_
      · obtain ⟨out, r', hok, -⟩ := hreads 1 Nat.one_pos
        rw [PgzfReader.read, if_neg (by decide), bind_error hrun] at hok
        exact absurd hok (by simp)
      · have hfits := (hruns (hneeds.mp hneed).2).2
        exact absurd hfits (Nat.not_lt.mpr hover)

theorem OnFile.currentPos_le (h : OnFile file index blocks r) :
    r.currentPos ≤ blocks.flatten.length := by
  apply Nat.le_trans h.serves.pos_le
  rcases h.serves.current with hnil | hmem
  · rw [hnil]
    exact Nat.zero_le _
  · rw [List.length_flatten]
    exact List.single_le_sum (fun _ _ => Nat.zero_le _) _ (List.mem_map_of_mem hmem)

theorem asI64_of_lt {n : Nat} (h : n < 2 ^ 63) : asI64 n = n := if_pos h

theorem OnFile.seeksTo_iff_of_ok (hd : Describes D file index blocks)
    (h : OnFile file index blocks r) {pos : SeekFrom} {p noted : Nat}
    (hseek : PgzfReader.seek pos r = .ok noted (r.noted noted)) :
    SeeksTo blocks.flatten p pos r ↔ 0 ≤ pos.target blocks.flatten.length p ∧
      pos.target blocks.flatten.length p < 2 ^ 64 ∧
      noted = (pos.target blocks.flatten.length p).toNat ∧
        (pos.target blocks.flatten.length p ≤ blocks.flatten.length →
        RefillRuns (r.noted (pos.target blocks.flatten.length p).toNat)) := by
  generalize hmeant : pos.target blocks.flatten.length p = meant
  rw [SeeksTo, hmeant]
  by_cases hrange : 0 ≤ meant ∧ meant < 2 ^ 64
  · rw [if_pos hrange]
    constructor
    · rintro ⟨r', hok, hreads⟩
      obtain ⟨rfl, rfl⟩ := EStateM.Result.ok.inj (hseek.symm.trans hok)
      exact ⟨hrange.1, hrange.2, rfl, fun hle => (h.readsFrom_noted hd (by omega)).mp (hreads hle)⟩
    · rintro ⟨-, -, rfl, hrefill⟩
      exact ⟨_, hseek, fun hle => (h.readsFrom_noted hd (by omega)).mpr (hrefill hle)⟩
  · rw [if_neg hrange]
    constructor
    · rintro ⟨e, r', herror, -⟩
      exact absurd (hseek.symm.trans herror) (by simp)
    · rintro ⟨hlo, hhi, -⟩
      exact absurd ⟨hlo, hhi⟩ hrange

theorem not_seeksTo_of_panic {payload : Bytes} {p : Nat} {pos : SeekFrom} {message : String}
    {s : PgzfReader D} (hseek : PgzfReader.seek pos r = .error (.panic message) s) :
    ¬ SeeksTo payload p pos r := by
  rw [SeeksTo]
  split
  · rintro ⟨r', hok, -⟩
    exact absurd (hseek.symm.trans hok) (by simp)
  · rintro ⟨e, r', herror, -⟩
    exact absurd (hseek.symm.trans herror) (by simp)

theorem OnFile.seeksTo_iff (hd : Describes D file index blocks) (h : OnFile file index blocks r)
    (hlen : blocks.flatten.length < 2 ^ 63) {pos : SeekFrom} (hpos : pos.InRange) (p : Nat) :
    SeeksTo blocks.flatten p pos r ↔ SeekHolds blocks.flatten.length p pos r := by
  have hsplit : SeekHolds blocks.flatten.length p pos r ↔ 0 ≤ pos.target blocks.flatten.length p ∧
      pos.target blocks.flatten.length p < 2 ^ 64 ∧
        ((∀ d, pos = .fromEnd d → (blocks.flatten.length : Int) + d < 2 ^ 63) ∧
        ∀ d, pos = .current d → r.currentPos = p % 2 ^ 64 ∧ (r.currentPos : Int) + d < 2 ^ 63) ∧
      (pos.target blocks.flatten.length p ≤ blocks.flatten.length →
        RefillRuns (r.noted (pos.target blocks.flatten.length p).toNat)) :=
    ⟨fun h => ⟨h.nonneg, h.lt, ⟨h.fromEnd, h.current⟩, h.refill⟩, fun ⟨hlo, hhi, ⟨hend, hcurrent⟩,
        hrefill⟩ =>
      ⟨hlo, hhi, hend, hcurrent, hrefill⟩⟩
  rw [hsplit]
  cases pos with
  | start n =>
    rw [h.seeksTo_iff_of_ok hd (seek_start n r)]
    simp [SeekFrom.target]
  | fromEnd d =>
    obtain ⟨hlo, hhi⟩ := hpos
    obtain ⟨hnotes, hpanics⟩ := seek_fromEnd h.isPgzf h.index_eq d
    rw [hd.totalUncompressed] at hnotes hpanics
    rw [I64Fits, asI64_of_lt hlen] at hnotes hpanics
    by_cases hfits : (blocks.flatten.length : Int) + d < 2 ^ 63
    · rw [h.seeksTo_iff_of_ok hd (hnotes ⟨by omega, hfits⟩)]
      simp only [SeekFrom.target]
      constructor
      · rintro ⟨hnonneg, hlt, -, hrefill⟩
        refine ⟨hnonneg, hlt, ⟨fun d' hsame => ?_, fun d' hsame => absurd hsame (by simp)⟩, hrefill⟩
        obtain rfl := SeekFrom.fromEnd.inj hsame
        exact hfits
      · rintro ⟨hnonneg, hlt, -, hrefill⟩
        exact ⟨hnonneg, hlt, by rw [Int.emod_eq_of_lt hnonneg hlt], hrefill⟩
    · apply iff_of_false (not_seeksTo_of_panic (hpanics fun hrange => hfits hrange.2))
      rintro ⟨-, -, ⟨hend, -⟩, -⟩
      exact hfits (hend d rfl)
  | current d =>
    obtain ⟨hlo, hhi⟩ := hpos
    obtain ⟨hnotes, hpanics⟩ := seek_current r d
    have hcurrent := h.currentPos_le
    rw [I64Fits, asI64_of_lt (by omega)] at hnotes hpanics
    by_cases hfits : (r.currentPos : Int) + d < 2 ^ 63
    · rw [h.seeksTo_iff_of_ok hd (hnotes ⟨by omega, hfits⟩)]
      simp only [SeekFrom.target]
      constructor
      · rintro ⟨hnonneg, hlt, hsum, hrefill⟩
        refine ⟨hnonneg, hlt, ⟨fun d' hsame => absurd hsame (by simp), fun d' hsame => ?_⟩, hrefill⟩
        obtain rfl := SeekFrom.current.inj hsame
        exact ⟨by omega, hfits⟩
      · rintro ⟨hnonneg, hlt, ⟨-, hplace⟩, hrefill⟩
        obtain ⟨hplace, -⟩ := hplace d rfl
        exact ⟨hnonneg, hlt, by omega, hrefill⟩
    · apply iff_of_false (not_seeksTo_of_panic (hpanics fun hrange => hfits hrange.2))
      rintro ⟨-, -, ⟨-, hend⟩, -⟩
      exact hfits (hend d rfl).2

open PgzfWriter in
/-- Exactly where a seek does what `Seek` is for. -/
theorem seeks_to_iff {config : PgzfConfig} {calls : List WriteCall}
    (hw : Written D config calls file) (hlen : (calls.flatMap WriteCall.bytes).length < 2 ^ 63)
    {q p : Nat}
    (hat : PositionAt (config.blocksOf (calls.flatMap WriteCall.bytes)) ⟨file, q, []⟩ r p)
    {pos : SeekFrom} (hpos : pos.InRange) :
    SeeksTo (calls.flatMap WriteCall.bytes) p pos r ↔
      SeekHolds (calls.flatMap WriteCall.bytes).length p pos r := by
  obtain ⟨index, raws, hl, hon, -⟩ := hat.reachable.written hw
  have hiff := hon.seeksTo_iff hl.described (by rwa [flatten_blocksOf hw.blockSize_pos]) hpos p
  rwa [flatten_blocksOf hw.blockSize_pos] at hiff

theorem Stored.positionAt_sample :
    PositionAt [[97, 98], [99, 100], [101, 102], [103]] ⟨sampleFile, 0, []⟩
    (fresh deps sampleFile sampleIndex) 0 := by
  obtain ⟨out, w, s', hrun, hbytes, hnew⟩ := sample_written
  rw [hbytes] at hnew
  exact .new hnew

theorem seeks_to_iff_sample :
    SeeksTo [97, 98, 99, 100, 101, 102, 103] 0 (.fromEnd (-4))
      (fresh Stored.deps Stored.sampleFile Stored.sampleIndex) := by
  have hrange : SeekFrom.InRange (.fromEnd (-4)) := ⟨by decide, by decide⟩
  apply (seeks_to_iff Stored.written_sample (by decide) Stored.positionAt_sample hrange).mpr
  refine ⟨by decide, by decide, fun d hd => ?_, fun d hd => absurd hd (by simp), fun _ => ?_⟩
  · obtain rfl := SeekFrom.fromEnd.inj hd
    decide
  · intro index start hindex hstart _
    obtain rfl := Option.some.inj hindex
    have hone : refillStart Stored.sampleIndex
        ((fresh Stored.deps Stored.sampleFile Stored.sampleIndex).noted 3) = some 1 := by
      decide +kernel
    obtain rfl := Option.some.inj (hone.symm.trans hstart)
    exact ⟨fun limit hlimit => absurd hlimit (by simp [PgzfReader.noted, fresh, opened]), by decide⟩

/-- With a seek to the fourth byte still pending, `Current(0)` leads to the front; and eight bytes
before the end of seven there is a place. -/
theorem seek_current_forgets :
    Written Stored.deps Stored.sampleConfig Stored.sampleWrites Stored.sampleFile ∧
      (∃ r : PgzfReader Stored.deps, PositionAt [[97, 98], [99, 100], [101, 102],
        [103]] ⟨Stored.sampleFile, 0, []⟩ r 3 ∧
        PgzfReader.seek (.current 0) r = .ok 0 (r.noted 0) ∧
          ¬ SeeksTo [97, 98, 99, 100, 101, 102, 103] 3 (.current 0) r) ∧
      ∃ r : PgzfReader Stored.deps, PositionAt [[97, 98], [99, 100], [101, 102],
        [103]] ⟨Stored.sampleFile, 0, []⟩ r 0 ∧
        PgzfReader.seek (.fromEnd (-8)) r = .ok (2 ^ 64 - 1) (r.noted (2 ^ 64 - 1)) ∧
        ¬ SeeksTo [97, 98, 99, 100, 101, 102, 103] 0 (.fromEnd (-8)) r := by
  obtain ⟨index, raws, hl, hon, -⟩ := Stored.reachable_sample.written Stored.written_sample
  refine ⟨Stored.written_sample, ⟨_, .seekToByte Stored.positionAt_sample (seekToByte_noted rfl 3),
    rfl, fun h => ?_⟩, _, Stored.positionAt_sample, rfl, fun h => ?_⟩
  · have hrange : SeekFrom.InRange (.current 0) := ⟨by decide, by decide⟩
    have hplace :=
      (((hon.noted 3).seeksTo_iff hl.described (by decide) hrange 3).mp h).current 0 rfl
    exact absurd hplace.1 (by decide)
  · have hrange : SeekFrom.InRange (.fromEnd (-8)) := ⟨by decide, by decide⟩
    have hplace := ((hon.seeksTo_iff hl.described (by decide) hrange 0).mp h).nonneg
    exact absurd hplace (by decide)

/-! ### Behind the end -/

def ReadStep (r r' : PgzfReader D) : Prop :=
  ∃ n answer, Prog.attempt (PgzfReader.read n) r = .ok answer r'

def NoData (answer : Except PgzfError Bytes) : Prop := answer = .ok [] ∨ ∃ e, answer = .error e

/-- The call is answered, and behind it, after any number of steps, no read delivers data. -/
def NeverYields {α : Type} (Between : PgzfReader D → PgzfReader D → Prop)
    (call : Prog (PgzfReader D) α) (r : PgzfReader D) : Prop :=
  ∃ a r', call r = .ok a r' ∧ ∀ r'', Relation.ReflTransGen Between r' r'' → ∀ n, 0 < n →
    ∃ answer last, Prog.attempt (PgzfReader.read n) r'' = .ok answer last ∧ NoData answer

/-- The readahead limit, if there is one, is reached by what the cache holds. -/
def LimitReached (r : PgzfReader D) : Prop :=
  ∃ limit, r.readaheadMemoryLimit = some limit ∧ limit ≤ r.blockCache.memoryUsage

structure Silent (file : Bytes) (index : PgzfIndex) (blocks : List Bytes) (r : PgzfReader D) :
    Prop where
  onFile : OnFile file index blocks r
  pending : ∀ target, r.pendingSeek = some target → blocks.flatten.length < target
  current : r.currentBlock = []
  queue : r.readahead = []

theorem Silent.read_pending (hd : Describes D file index blocks) (h : Silent file index blocks r)
    {target : Nat} (hpending : r.pendingSeek = some target) {n : Nat} (hn : 0 < n) :
    ∃ e, Prog.attempt (PgzfReader.read n) r = .ok (.error e) { r with pendingSeek := none } := by
  have hseek := executePendingSeek_refused hpending h.onFile.index_eq (seekByte_beyond (by
    rw [hd.totalUncompressed]
    exact h.pending target hpending))
  have hread : PgzfReader.read n r = _ :=
    (congrFun (if_neg (Nat.ne_of_gt hn)) r).trans (bind_error hseek)
  exact ⟨_, Prog.attempt_error hread⟩

/-- Where nothing is fetched, a read forgets the seek or notes the end, if it does anything. -/
theorem Silent.read (hd : Describes D file index blocks) (h : Silent file index blocks r)
    (hquiet : r.eof = true ∨ ¬ NeedsRefill index r) {n : Nat} (hn : 0 < n) :
    ∃ answer eof, Prog.attempt (PgzfReader.read n) r = .ok answer { r with
        pendingSeek := none, eof := eof } ∧
      NoData answer ∧ (r.eof = true → eof = true) := by
  have hused : r.currentBlock.length ≤ r.currentPos := by
    rw [h.current]
    exact Nat.zero_le _
  cases hpending : r.pendingSeek with
  | some target =>
    obtain ⟨e, hread⟩ := h.read_pending hd hpending hn
    exact ⟨.error e, r.eof, hread, .inr ⟨e, rfl⟩, id⟩
  | none =>
    have hsame : { r with pendingSeek := none, eof := r.eof } = r := by rw [← hpending]
    rcases h.onFile.read_cases hd hpending hn with ⟨hleft, -⟩ | ⟨-, heof, hread⟩ | ⟨-, -, next,
      rest, hqueue, -⟩ | ⟨-, -, -, -, hread⟩ | ⟨-, heof, hneeds, -⟩ | ⟨-, heof, hneeds, -⟩
    · exact absurd hleft (Nat.not_lt.mpr hused)
    · exact ⟨.ok [], r.eof, by rw [hsame]; exact Prog.attempt_ok hread, .inl rfl, id⟩
    · exact absurd (h.queue.symm.trans hqueue) (by simp)
    · exact ⟨.ok [], true, by rw [← hpending]; exact Prog.attempt_ok hread, .inl rfl, fun _ => rfl⟩
    · simp [heof, hneeds] at hquiet
    · simp [heof, hneeds] at hquiet

theorem Silent.forget (h : Silent file index blocks r) (eof : Bool) :
    Silent file index blocks { r with pendingSeek := none, eof := eof } :=
  ⟨h.onFile.moved h.onFile.inner rfl rfl rfl rfl (h.onFile.serves.congr rfl rfl rfl),
    fun _ htarget => absurd htarget (by simp), h.current, h.queue⟩

theorem Silent.readStep (hd : Describes D file index blocks) (h : Silent file index blocks r)
    (hquiet : r.eof = true ∨ ¬ NeedsRefill index r) (hstep : ReadStep r r') :
    Silent file index blocks r' ∧ (r.eof = true → r'.eof = true) ∧
      (r'.eof = true ∨ ¬ NeedsRefill index r') := by
  obtain ⟨n, answer, hanswer⟩ := hstep
  rcases Nat.eq_zero_or_pos n with rfl | hn
  · rw [Prog.attempt_ok (read_zero r)] at hanswer
    obtain ⟨-, rfl⟩ := EStateM.Result.ok.inj hanswer
    exact ⟨h, id, hquiet⟩
  · obtain ⟨answer', eof, hread, -, hkept⟩ := h.read hd hquiet hn
    obtain ⟨-, rfl⟩ := EStateM.Result.ok.inj (hread.symm.trans hanswer)
    exact ⟨h.forget eof, hkept, hquiet.imp_left hkept⟩

theorem Silent.settingStep (h : Silent file index blocks r) (hstep : SettingStep r r') :
    Silent file index blocks r' :=
  ⟨h.onFile.setting hstep, by cases hstep <;> exact h.pending, by cases hstep <;> exact h.current,
    by cases hstep <;> exact h.queue⟩

theorem OnFile.silent (h : OnFile file index blocks r) {t : Nat} (ht : blocks.flatten.length < t) :
    Silent file index blocks (r.noted t) :=
  ⟨h.noted t, fun _ htarget => Option.some.inj htarget ▸ ht, rfl, rfl⟩

theorem needsRefill_noted (hindex : 0 < index.blockCount) (r : PgzfReader D) (t : Nat) :
    NeedsRefill index (r.noted t) ↔ ¬ LimitReached r := by
  have husage : (r.noted t).totalMemoryUsage = r.blockCache.memoryUsage := by
    rw [totalMemoryUsage, readaheadMemoryUsage]
    simp only [PgzfReader.noted, List.map_nil, List.sum_nil, List.length_nil, Nat.add_zero]
  rw [NeedsRefill, husage, LimitReached]
  constructor
  · rintro ⟨-, hbelow, -⟩ ⟨limit, hlimit, hle⟩
    exact absurd (hbelow limit hlimit) (Nat.not_lt.mpr hle)
  · intro hnot
    exact ⟨rfl, fun limit hlimit => Nat.not_le.mp fun hle => hnot ⟨limit, hlimit, hle⟩, hindex⟩

/-- A reader without an end flag that may refill from the first block yields data. -/
theorem OnFile.yields (hd : Describes D file index blocks) (h : OnFile file index blocks r)
    (hidle : r.pendingSeek = none) (hcurrent : r.currentBlock = []) (hfirst : r.nextBlockIndex = 0)
    (heof : r.eof = false) (hneeds : NeedsRefill index r) :
    ∃ out last, Prog.attempt (PgzfReader.read 1) r = .ok (.ok out) last ∧ out ≠ [] := by
  rcases h.read_cases hd hidle Nat.one_pos with ⟨hleft, -⟩ | ⟨-, htrue, -⟩ | ⟨-, -, next, rest,
    hqueue, -⟩ | ⟨-, -, -, hno, -⟩ | ⟨-, -, -, -, hlt, q, hread⟩ | ⟨-, -, -, hover, -⟩
  · rw [hcurrent] at hleft
    exact absurd hleft (Nat.not_lt_zero _)
  · exact absurd (heof.symm.trans htrue) (by simp)
  · exact absurd (hneeds.1.symm.trans hqueue) (by simp)
  · exact absurd hneeds hno
  · refine ⟨_, _, Prog.attempt_ok hread, fun hnil => ?_⟩
    have hne := hd.ne_nil _ (List.getElem_mem hlt)
    rcases List.take_eq_nil_iff.mp hnil with hzero | hblock
    · exact absurd hzero (by decide)
    · exact hne hblock
  · rw [hfirst, Nat.zero_add] at hover
    exact absurd h.size_lt (Nat.not_lt.mpr hover)

variable {α : Type} {call : Prog (PgzfReader D) α} {a : α} {t : Nat}

theorem OnFile.not_neverYields (hd : Describes D file index blocks)
    {Between : PgzfReader D → PgzfReader D → Prop} (hcall : call r = .ok a r') {mid : PgzfReader D}
    (hsteps : Relation.ReflTransGen Between r' mid) (h : OnFile file index blocks mid)
    (hidle : mid.pendingSeek = none) (hcurrent : mid.currentBlock = [])
    (hfirst : mid.nextBlockIndex = 0) (heof : mid.eof = false) (hneeds : NeedsRefill index mid) :
    ¬ NeverYields Between call r := by
  rintro ⟨a', r'', hok, hnever⟩
  obtain ⟨-, rfl⟩ := EStateM.Result.ok.inj (hcall.symm.trans hok)
  obtain ⟨out, last, hread, hne⟩ := h.yields hd hidle hcurrent hfirst heof hneeds
  obtain ⟨answer, last', hread', hnone⟩ := hnever mid hsteps 1 Nat.one_pos
  obtain ⟨rfl, -⟩ := EStateM.Result.ok.inj (hread.symm.trans hread')
  rcases hnone with hnil | ⟨e, herror⟩
  · exact hne (Except.ok.inj hnil)
  · exact absurd herror (by simp)

/-- Behind a seek beyond the end, reads alone yield nothing exactly where the end was noted before
or the limit is reached. -/
theorem OnFile.neverYields_read_iff (hd : Describes D file index blocks)
    (h : OnFile file index blocks r) (hcount : 0 < blocks.length) (ht : blocks.flatten.length < t)
    (hcall : call r = .ok a (r.noted t)) :
    NeverYields ReadStep call r ↔ r.eof = true ∨ LimitReached r := by
  have hneeds := needsRefill_noted (hd.blockCount ▸ hcount) r t
  constructor
  · intro hnever
    by_contra hloud
    rw [not_or, Bool.not_eq_true] at hloud
    -- the first read forgets the seek, and the second one starts over
    obtain ⟨e, hread⟩ := (h.silent ht).read_pending hd rfl Nat.one_pos
    exact OnFile.not_neverYields hd hcall (.single ⟨1, _, hread⟩)
      ((h.silent ht).forget r.eof).onFile rfl rfl rfl hloud.1 (hneeds.mpr hloud.2) hnever
  · intro hquiet
    refine ⟨a, _, hcall, fun r'' hsteps n hn => ?_⟩
    have hend : Silent file index blocks r'' ∧ (r''.eof = true ∨ ¬ NeedsRefill index r'') := by
      induction hsteps with
      | refl => exact ⟨h.silent ht, hquiet.imp_right fun hlimit hrefill => hneeds.mp hrefill hlimit⟩
      | tail _ hstep ih =>
        obtain ⟨hsame, -, hquiet'⟩ := ih.1.readStep hd ih.2 hstep
        exact ⟨hsame, hquiet'⟩
    obtain ⟨answer, eof, hread, hnone, -⟩ := hend.1.read hd hend.2 hn
    exact ⟨answer, _, hread, hnone⟩

/-- With changes of the settings in between, exactly where the end was noted before. -/
theorem OnFile.neverYields_setting_iff (hd : Describes D file index blocks)
    (h : OnFile file index blocks r) (hcount : 0 < blocks.length) (ht : blocks.flatten.length < t)
    (hcall : call r = .ok a (r.noted t)) :
    NeverYields (fun r r' => ReadStep r r' ∨ SettingStep r r') call r ↔ r.eof = true := by
  constructor
  · intro hnever
    by_contra hloud
    rw [Bool.not_eq_true] at hloud
    obtain ⟨e, hread⟩ := (h.silent ht).read_pending hd rfl Nat.one_pos
    have hsetting := SettingStep.withReadaheadMemoryLimit { r.noted t with pendingSeek := none }
      (r.blockCache.memoryUsage + 1)
    have hsteps := (Relation.ReflTransGen.single (r := fun r r' => ReadStep r r' ∨ SettingStep r r')
      (.inl ⟨1, _, hread⟩)).tail (.inr hsetting)
    refine OnFile.not_neverYields hd hcall hsteps
      (((h.silent ht).forget r.eof).onFile.setting hsetting) rfl rfl rfl hloud ?_ hnever
    refine ⟨rfl, fun limit hlimit => ?_, by rw [hd.blockCount]; exact hcount⟩
    obtain rfl := Option.some.inj hlimit
    exact Nat.lt_succ_self _
  · intro heof
    refine ⟨a, _, hcall, fun r'' hsteps n hn => ?_⟩
    have hend : Silent file index blocks r'' ∧ r''.eof = true := by
      induction hsteps with
      | refl => exact ⟨h.silent ht, heof⟩
      | tail _ hstep ih =>
        rcases hstep with hread | hsetting
        · obtain ⟨hsame, hkept, -⟩ := ih.1.readStep hd (.inl ih.2) hread
          exact ⟨hsame, hkept ih.2⟩
        · exact ⟨ih.1.settingStep hsetting, by cases hsetting <;> exact ih.2⟩
    obtain ⟨answer, eof, hread, hnone, -⟩ := hend.1.read hd (.inl hend.2) hn
    exact ⟨answer, _, hread, hnone⟩

open PgzfWriter in
/-- Exactly where a seek beyond the end is never followed by data: among reads alone, and with
changes of the settings. -/
theorem never_yields_iff {config : PgzfConfig} {calls : List WriteCall}
    (hw : Written D config calls file) {q : Nat} (hreach : Reachable ⟨file, q, []⟩ r) {t : Nat}
    (ht : (calls.flatMap WriteCall.bytes).length < t) :
    (NeverYields ReadStep (PgzfReader.seekToByte t) r ↔ r.eof = true ∨ LimitReached r) ∧
      (NeverYields ReadStep (PgzfReader.seek (.start t)) r ↔ r.eof = true ∨ LimitReached r) ∧
      (NeverYields (fun r r' => ReadStep r r' ∨ SettingStep r r') (PgzfReader.seekToByte t) r ↔
        r.eof = true) ∧
      (NeverYields (fun r r' => ReadStep r r' ∨ SettingStep r r') (PgzfReader.seek (.start t)) r ↔
        r.eof = true) := by
  obtain ⟨index, raws, hl, hon, -⟩ := hreach.written hw
  have hcount : 0 < (config.blocksOf (calls.flatMap WriteCall.bytes)).length :=
    List.length_pos_iff.mpr (Chunks.chunks_ne_nil hw.blockSize_pos (hreach.payload_ne_nil hw))
  rw [← flatten_blocksOf hw.blockSize_pos (calls.flatMap WriteCall.bytes)] at ht
  have hbyte := seekToByte_noted hon.isPgzf t
  have hstart := seek_start t r
  exact ⟨hon.neverYields_read_iff hl.described hcount ht hbyte,
    hon.neverYields_read_iff hl.described hcount ht hstart,
    hon.neverYields_setting_iff hl.described hcount ht hbyte,
      hon.neverYields_setting_iff hl.described hcount ht hstart⟩

theorem never_yields_iff_sample :
    NeverYields ReadStep (PgzfReader.seekToByte 8)
      ((fresh Stored.deps Stored.sampleFile Stored.sampleIndex).withReadaheadMemoryLimit 0) :=
  (never_yields_iff Stored.written_sample
    (Stored.reachable_sample.step (.setting (.withReadaheadMemoryLimit _ 0)))
    (show 7 < 8 by decide)).1.mpr (.inr ⟨0, rfl, Nat.zero_le _⟩)

/-- Behind a seek to the eighth of seven bytes the first
read fails, and the second one delivers the first block. -/
theorem seek_beyond_end_starts_over :
    Written Stored.deps Stored.sampleConfig Stored.sampleWrites Stored.sampleFile ∧
      Reachable ⟨Stored.sampleFile,
        0, []⟩ (fresh Stored.deps Stored.sampleFile Stored.sampleIndex) ∧
      (∃ e r', (do
          PgzfReader.seekToByte 8
          let first ← Prog.attempt (PgzfReader.read 4)
          let second ← PgzfReader.read 4
          return (first, second) : Prog (PgzfReader Stored.deps) (Except PgzfError Bytes × Bytes))
            (fresh Stored.deps Stored.sampleFile Stored.sampleIndex) = .ok (.error e,
              [97, 98]) r') ∧
      ¬ NeverYields ReadStep (PgzfReader.seekToByte 8)
        (fresh Stored.deps Stored.sampleFile Stored.sampleIndex) := by
  refine ⟨Stored.written_sample, Stored.reachable_sample, ?_, fun hnever => ?_⟩
  · have hreads : outcome ((do
        PgzfReader.seekToByte 8
        let first ← Prog.attempt (PgzfReader.read 4)
        let second ← PgzfReader.read 4
        return (first, second) : Prog (PgzfReader Stored.deps) (Except PgzfError Bytes × Bytes))
          (fresh Stored.deps Stored.sampleFile Stored.sampleIndex)) =
        .ok (.error (.io ⟨.invalidInput, (PgzfError.seekBeyondEnd 8 7).display⟩), [97, 98]) := by
      decide +kernel
    exact ⟨_, exists_of_outcome hreads⟩
  · obtain ⟨index, raws, hl, hon, -⟩ := Stored.reachable_sample.written Stored.written_sample
    rcases (hon.neverYields_read_iff hl.described (by decide) (by decide)
        (seekToByte_noted rfl 8)).mp hnever with
      heof | ⟨limit, hlimit, -⟩
    · exact absurd heof (by decide)
    · exact absurd hlimit (by simp [fresh, opened])

end Pgzf
