import Pgzf.Limits
import Pgzf.MemoryUse

/-!
# The readahead memory limit

A refill that finds the memory limit reached does nothing, and `read` takes the empty queue for the
end of the file. What is in use at a refill is known: as many full blocks as the cache holds of
those read so far, and the block served last. So a limit is harmless exactly when it lies above that
at every refill.
-/

namespace Pgzf

open PgzfReader BlockCursor

variable {D : Deps} {file : Bytes} {index : PgzfIndex} {blocks : List Bytes}

/-! ### What is in use at a refill -/

/-- The memory in use when the refill starts at block `start`: nothing at first, and later the
cached blocks and the block served last. -/
def usageAt (blockSize capacity start : Nat) : Nat :=
  if start = 0 then 0 else (min start capacity + 1) * blockSize

/-- A reader that has only gone forward through blocks
of `blockSize` bytes, in batches of `size` blocks. -/
structure Forward (file : Bytes) (index : PgzfIndex) (blocks : List Bytes) (size capacity : Nat)
    (r : PgzfReader D) (pos : Nat) : Prop where
  tracks : Tracks file index blocks r pos
  pendingSeek : r.pendingSeek = none
  readaheadSize : r.readaheadSize = size
  cache : r.blockCache.Holds capacity (BlockCache.latest blocks capacity r.nextBlockIndex)
  batches : size ∣ r.nextBlockIndex ∨ r.nextBlockIndex = blocks.length
  served : r.currentBlock = [] → r.nextBlockIndex = 0

variable {size capacity blockSize : Nat} {r : PgzfReader D} {pos : Nat}

theorem refillStart_of_pendingSeek_none (hnone : r.pendingSeek = none) {start : Nat}
    (hstart : refillStart index r = some start) :
    start = r.nextBlockIndex ∧ r.currentBlock.length ≤ r.currentPos ∧ r.eof = false ∧
      r.readahead = [] := by
  rw [refillStart, hnone] at hstart
  simp only at hstart
  split at hstart
  · exact absurd hstart (by simp)
  · rename_i hbusy
    simp only [not_or, ne_eq, not_not, Bool.not_eq_true] at hbusy
    exact ⟨(Option.some.inj hstart).symm, by omega, hbusy.2.1, hbusy.2.2⟩

/-- A refill starts a batch, and what is in use then depends on the number of the batch only. -/
theorem Forward.refill (h : Forward file index blocks size capacity r pos)
    (hfull : ∀ i, i + 1 < blocks.length → (blocks.getD i []).length = blockSize) {start : Nat}
    (hstart : refillStart index r = some start) (hlt : start < blocks.length) :
    start = r.nextBlockIndex ∧ size ∣ start ∧ refillUsage r = usageAt blockSize capacity start := by
  obtain ⟨rfl, hdone, -, hempty⟩ := refillStart_of_pendingSeek_none h.pendingSeek hstart
  obtain ⟨j, hplaced⟩ := h.tracks.placed h.pendingSeek
  have hj : j = r.nextBlockIndex := by
    have hlen := congrArg List.length (hplaced.queue.symm.trans hempty)
    have hle := hplaced.le_next
    rw [List.length_take, List.length_drop, List.length_nil] at hlen
    omega
  refine ⟨rfl, h.batches.resolve_right (by omega), ?_⟩
  have hmemory := h.cache.memoryUsage_eq (fun i hi => hfull i (by omega))
  rw [refillUsage, h.pendingSeek, usageAt]
  simp only [hmemory]
  rcases hplaced.current with hnil | ⟨i, hi, hget⟩
  · rw [if_pos (h.served hnil), hnil, h.served hnil]
    simp
  · have hlength := hfull i (by omega)
    rw [List.getD_eq_getElem?_getD, hget, Option.getD_some] at hlength
    rw [if_neg (by omega), hlength, Nat.succ_mul]

theorem Forward.cleanRefill (h : Forward file index blocks size capacity r pos)
    (hsize : size < 2 ^ 64) (hfit : 2 * blocks.length < 2 ^ 64)
    (hbelow : ∀ start, refillStart index r = some start → start < blocks.length → BelowLimit r) :
    CleanRefill index blocks r := by
  intro start hstart hlt
  have hlimit := hbelow start hstart hlt
  obtain ⟨rfl, -⟩ := refillStart_of_pendingSeek_none h.pendingSeek hstart
  refine ⟨hlimit, ?_, .inr ?_⟩
  · rw [h.readaheadSize]
    rcases Nat.eq_zero_or_pos r.nextBlockIndex with hzero | hpos
    · omega
    · have := Nat.le_of_dvd hpos (h.batches.resolve_right (by omega))
      omega
  · refine h.cache.lookup_of_absent (BlockCache.find_latest blocks ?_)
    have := h.tracks.readaheadSize
    rw [batchStop]
    omega

/-- One read goes forward by at most a batch. -/
theorem Forward.read (hd : Describes D file index blocks)
    (h : Forward file index blocks size capacity r pos) (hclean : CleanRefill index blocks r)
    {n : Nat} (hn : 0 < n) :
    ∃ r', PgzfReader.read n r = .ok (BlockCursor.read blocks pos n).1 r' ∧
      Forward file index blocks size capacity r' (BlockCursor.read blocks pos n).2 ∧
      r'.readaheadMemoryLimit = r.readaheadMemoryLimit ∧
      (r'.nextBlockIndex = r.nextBlockIndex ∨ refillStart index r = some r.nextBlockIndex ∧
        r.nextBlockIndex < blocks.length ∧
          r'.nextBlockIndex = min blocks.length (r.nextBlockIndex + size)) := by
  obtain ⟨r', hread, htracks, hframe, hadvance⟩ :=
    read_placed hd h.tracks h.pendingSeek hclean (Nat.ne_of_gt hn)
  have hserved : r'.currentBlock = [] → r'.nextBlockIndex = 0 := by
    intro hnil
    obtain ⟨hcurrent, hnext⟩ := hadvance.current hnil
    rw [hnext, h.served hcurrent]
  have hsize := hframe.readaheadSize.trans h.readaheadSize
  refine ⟨r', hread, ?_, hframe.readaheadMemoryLimit, ?_⟩
  · rcases hadvance.refill with ⟨hnext, hcache⟩ | ⟨-, hlt, hnext, hcache⟩
    · exact ⟨htracks, hframe.pendingSeek,
        hsize, by rw [hnext, hcache]; exact h.cache, by rw [hnext]; exact h.batches, hserved⟩
    · refine ⟨htracks, hframe.pendingSeek, hsize, ?_, ?_, hserved⟩
      · rw [hnext, hcache]
        apply h.cache.refillCache
        rw [batchStop]
        omega
      · rw [hnext, batchStop, h.readaheadSize]
        rcases Nat.le_total blocks.length (r.nextBlockIndex + size) with hle | hle
        · exact .inr (Nat.min_eq_left hle)
        · rw [Nat.min_eq_right hle]
          exact .inl ((Nat.dvd_add_right (h.batches.resolve_right (by omega))).mpr
            (Nat.dvd_refl size))
  · rcases hadvance.refill with ⟨hnext, -⟩ | ⟨hstart, hlt, hnext, -⟩
    · exact .inl hnext
    · rw [batchStop, h.readaheadSize] at hnext
      exact .inr ⟨hstart, hlt, hnext⟩

/-! ### Below the limit -/

/-- Where the limit lies above what is in use at every
refill, or there is none, all of the data is delivered. -/
theorem Forward.readToEnd (hd : Describes D file index blocks)
    (hfull : ∀ i, i + 1 < blocks.length → (blocks.getD i []).length = blockSize)
    (hsize : size < 2 ^ 64) (hfit : 2 * blocks.length < 2 ^ 64) {memoryLimit : Option Nat}
    (hbelow : ∀ start, size ∣ start → start < blocks.length → ∀ limit, memoryLimit = some limit →
      usageAt blockSize capacity start < limit)
    (h : Forward file index blocks size capacity r pos)
    (hlimit : r.readaheadMemoryLimit = memoryLimit) {sizes : List Nat} (hsizes : ∀ n ∈ sizes, 0 < n)
    (hlen : (blocks.flatten.drop pos).length < sizes.length) :
    ∃ r', PgzfReader.readToEnd sizes r = .ok (some (blocks.flatten.drop pos)) r' := by
  have hread : ∀ (r : PgzfReader D) pos n,
      (Forward file index blocks size capacity r pos ∧ r.readaheadMemoryLimit = memoryLimit) →
        0 < n →
      ∃ r', PgzfReader.read n r = .ok (BlockCursor.read blocks pos n).1 r' ∧
        Forward file index blocks size capacity r' (BlockCursor.read blocks pos n).2 ∧
          r'.readaheadMemoryLimit = memoryLimit := by
    rintro r pos n ⟨h, hlimit⟩ hn
    have hclean : CleanRefill index blocks r := by
      apply h.cleanRefill hsize hfit
      intro start hstart hlt limit hcase
      obtain ⟨-, hbatch, husage⟩ := h.refill hfull hstart hlt
      rw [husage]
      exact hbelow start hbatch hlt limit (hlimit.symm.trans hcase)
    obtain ⟨r', hread, hforward, hlimit', -⟩ := h.read hd hclean hn
    exact ⟨r', hread, hforward, hlimit'.trans hlimit⟩
  exact readToEnd_of_read hread ⟨h, hlimit⟩ hsizes hlen

/-! ### At the limit -/

theorem read_blocked (h : Forward file index blocks size capacity r pos) {start : Nat}
    (hstart : refillStart index r = some start) {limit : Nat}
    (hlimit : r.readaheadMemoryLimit = some limit) (hreached : limit ≤ refillUsage r) {n : Nat}
    (hn : 0 < n) : ∃ r', PgzfReader.read n r = .ok [] r' := by
  obtain ⟨-, hdone, heof, hempty⟩ := refillStart_of_pendingSeek_none h.pendingSeek hstart
  have hblocked : (r.readaheadMemoryLimit.any fun limit => decide (r.totalMemoryUsage ≥ limit)) =
      true := by
    rw [refillUsage, h.pendingSeek] at hreached
    rw [hlimit, totalMemoryUsage, readaheadMemoryUsage, hempty]
    simpa using hreached
  have hskip : fillReadahead r = .ok () r := by
    rw [fillReadahead, Program.bind_ok (Program.get_apply _)]
    simp only [h.tracks.isPgzf, Bool.not_true, Bool.false_eq_true, if_false, hempty,
      List.isEmpty_nil, hblocked, if_true, Program.pure_apply]
  rw [PgzfReader.read, if_neg (Nat.ne_of_gt hn),
    Program.bind_ok (executePendingSeek_none h.pendingSeek), Program.bind_ok (Program.get_apply _),
    if_neg (Nat.not_lt.mpr hdone)]
  simp only [heof, Bool.false_eq_true, if_false]
  rw [readNextBlock, Program.bind_ok (Program.get_apply _)]
  simp only [h.tracks.isPgzf, if_true]
  rw [Program.bind_ok (serveNext_nil hempty n)]
  simp only
  rw [Program.bind_ok hskip, Program.bind_ok (serveNext_nil hempty n)]
  exact ⟨_, rfl⟩

/-- Nothing behind a block at which a refill would find the limit reached is ever delivered. -/
theorem Forward.delivered_le (hd : Describes D file index blocks)
    (hfull : ∀ i, i + 1 < blocks.length → (blocks.getD i []).length = blockSize)
    (hsize : size < 2 ^ 64) (hfit : 2 * blocks.length < 2 ^ 64) {limit stop : Nat}
    (hbatch : size ∣ stop) (hstop : stop < blocks.length)
    (hreached : limit ≤ usageAt blockSize capacity stop)
    (h : Forward file index blocks size capacity r pos)
    (hlimit : r.readaheadMemoryLimit = some limit) (hle : r.nextBlockIndex ≤ stop)
    {sizes : List Nat} (hsizes : ∀ n ∈ sizes, 0 < n) {out : Bytes} {r' : PgzfReader D}
    (hrun : PgzfReader.readToEnd sizes r = .ok (some out) r') :
    pos + out.length ≤ offset blocks stop := by
  have hposition : ∀ {r : PgzfReader D} {pos : Nat}, Forward file index blocks size capacity r pos →
      r.nextBlockIndex ≤ stop → pos ≤ offset blocks stop := by
    intro r pos h hle
    obtain ⟨j, hplaced⟩ := h.tracks.placed h.pendingSeek
    have hoffset := hplaced.offset_eq
    have hmono := offset_mono blocks (Nat.le_trans hplaced.le_next hle)
    omega
  induction sizes generalizing r pos out with
  | nil => exact absurd hrun (by simp [PgzfReader.readToEnd, Program.pure_apply])
  | cons n sizes ih =>
    have hn := hsizes n List.mem_cons_self
    obtain ⟨first, mid, hread, hfirst⟩ := readToEnd_cons_eq_some hrun
    by_cases hbelow : ∀ start, refillStart index r = some start → start < blocks.length →
      BelowLimit r
    · obtain ⟨mid', hread', hmid, hmidLimit, hnext⟩ :=
        h.read hd (h.cleanRefill hsize hfit hbelow) hn
      obtain ⟨rfl, rfl⟩ := EStateM.Result.ok.inj (hread.symm.trans hread')
      have hmidLe : mid.nextBlockIndex ≤ stop := by
        rcases hnext with hnext | ⟨hstart, hlt, hnext⟩
        · omega
        · -- the limit is not reached here, so this is an earlier batch
          obtain ⟨-, hdvd, husage⟩ := h.refill hfull hstart hlt
          have hroom := hbelow _ hstart hlt limit hlimit
          have hne : r.nextBlockIndex ≠ stop := by
            intro heq
            rw [husage, heq] at hroom
            omega
          have :=
            Nat.le_of_dvd (show 0 < stop - r.nextBlockIndex by omega) (Nat.dvd_sub hbatch hdvd)
          omega
      rcases hfirst with ⟨-, rfl, -⟩ | ⟨-, rest, hrest, rfl⟩
      · rw [List.length_nil]
        exact hposition h hle
      · have hlater := ih hmid (hmidLimit.trans hlimit) hmidLe (fun m hm =>
          hsizes m (List.mem_cons_of_mem _ hm)) hrest
        rw [read_snd] at hlater
        rw [List.length_append]
        omega
    · simp only [not_forall, BelowLimit, Nat.not_lt] at hbelow
      obtain ⟨start, hstart, -, l, hl, hblocked⟩ := hbelow
      obtain ⟨mid', hread'⟩ := read_blocked h hstart hl hblocked hn
      obtain ⟨rfl, rfl⟩ := EStateM.Result.ok.inj (hread.symm.trans hread')
      rcases hfirst with ⟨-, rfl, -⟩ | ⟨hne, -⟩
      · rw [List.length_nil]
        exact hposition h hle
      · exact absurd rfl hne

/-- Read from the front under a limit, all of the data
is delivered exactly when every refill is below it. -/
theorem Forward.readToEnd_iff (hd : Describes D file index blocks)
    (hfull : ∀ i, i + 1 < blocks.length → (blocks.getD i []).length = blockSize)
    (hsize : size < 2 ^ 64) (hfit : 2 * blocks.length < 2 ^ 64)
    (h : Forward file index blocks size capacity r 0) (hfront : r.nextBlockIndex = 0) {limit : Nat}
    (hlimit : r.readaheadMemoryLimit = some limit) {sizes : List Nat} (hsizes : ∀ n ∈ sizes, 0 < n)
    (hlen : blocks.flatten.length < sizes.length) :
    (∃ r', PgzfReader.readToEnd sizes r = .ok (some blocks.flatten) r') ↔
      ∀ start, size ∣ start → start < blocks.length → usageAt blockSize capacity start < limit := by
  constructor
  · rintro ⟨r', hrun⟩ start hbatch hstart
    by_contra hreached
    have hle := h.delivered_le hd hfull hsize hfit hbatch hstart (Nat.not_lt.mp hreached) hlimit
      (by omega) hsizes hrun
    have hsucc := offset_succ hstart
    have hpos := List.length_pos_iff.mpr (hd.ne_nil _ (List.getElem_mem hstart))
    have hend := offset_le_length blocks (start + 1)
    omega
  · intro hbelow
    refine h.readToEnd hd hfull hsize hfit ?_ hlimit hsizes (by rwa [List.drop_zero])
    rintro start hbatch hstart _ ⟨⟩
    exact hbelow start hbatch hstart

/-! ### Written files -/

theorem forward_configured (D : Deps) (file : Bytes) (index : PgzfIndex) (blocks : List Bytes)
    (size capacity : Nat) :
    Forward file index blocks (max size 1) capacity
      ((fresh D file index).configured size capacity none) 0 :=
  ⟨tracks_configured D file index blocks size capacity none, rfl, rfl,
    BlockCache.holds_latest_zero D blocks capacity, .inl ⟨0, rfl⟩, fun _ => rfl⟩

theorem Forward.withReadaheadMemoryLimit (h : Forward file index blocks size capacity r pos)
    (limit : Nat) :
    Forward file index blocks size capacity (r.withReadaheadMemoryLimit limit) pos := by
  have ht := h.tracks
  refine ⟨⟨ht.inner, ht.isPgzf, ht.index_eq, ht.readaheadSize, ht.sound, ht.pos_le, ht.pending,
    fun hnone => ?_⟩, h.pendingSeek, h.readaheadSize, h.cache, h.batches, h.served⟩
  obtain ⟨j, hplaced⟩ := ht.placed hnone
  exact ⟨j, hplaced.le_next, hplaced.next_le, hplaced.queue, hplaced.offset_eq, hplaced.current,
    hplaced.eof⟩

variable {config : PgzfConfig} {bufs : List Bytes}

/-- A memory limit changes nothing of what is read exactly when it lies above what is in use at the
start of every batch. -/
theorem memory_limit_harmless_iff (hlimits : WithinLimits D (2 ^ 30) config bufs.flatten)
    (hcodec : Codec D config bufs.flatten) (hne : bufs.flatten ≠ []) (capacity limit : Nat)
    {size : Nat} (hsize : size < 2 ^ 64) :
    ∃ reader, Opens D config bufs reader ∧ ∀ sizes : List Nat, (∀ n ∈ sizes, 0 < n) →
      bufs.flatten.length < sizes.length →
        (∃ r', readToEnd sizes (reader.configured size capacity none) =
          .ok (some bufs.flatten) r') ∧
        ((∃ r',
          readToEnd sizes ((reader.configured size capacity none).withReadaheadMemoryLimit limit) =
            .ok (some bufs.flatten) r') ↔
          ∀ start, max size 1 ∣ start → start < (config.blocksOf bufs.flatten).length →
            usageAt config.blockSize capacity start < limit) := by
  have hd := describes_written hlimits hcodec
  have hpayload := flatten_blocksOf hlimits.blockSize_pos bufs.flatten
  have hfull : ∀ i, i + 1 < (config.blocksOf bufs.flatten).length →
      ((config.blocksOf bufs.flatten).getD i []).length = config.blockSize := by
    intro i hi
    rw [List.getD_eq_getElem?_getD, List.getElem?_eq_getElem (by omega), Option.getD_some]
    exact Chunks.length_getElem_chunks hlimits.blockSize_pos _ i hi
  have hfit : 2 * (config.blocksOf bufs.flatten).length < 2 ^ 64 := by
    have hle := length_le_fileBytes D config.compressionLevel (config.groupsOf bufs.flatten)
    have hsizeOf := hlimits.addressable
    rw [flatten_groupsOf] at hle
    omega
  refine ⟨_, opens_written hlimits (by decide) hcodec.compresses hne, ?_⟩
  intro sizes hsizes hlen
  rw [← hpayload] at hlen
  have hforward :=
    forward_configured D (fileBytes D config.compressionLevel (config.groupsOf bufs.flatten))
      (indexOf D config.compressionLevel (config.groupsOf bufs.flatten))
        (config.blocksOf bufs.flatten) size capacity
  have hunlimited : ∀ start, max size 1 ∣ start → start < (config.blocksOf bufs.flatten).length →
      ∀ limit, (none : Option Nat) = some limit → usageAt config.blockSize capacity start < limit :=
        nofun
  have hall :=
    hforward.readToEnd hd hfull (by omega) hfit hunlimited rfl hsizes (by rwa [List.drop_zero])
  have hiff := (hforward.withReadaheadMemoryLimit limit).readToEnd_iff hd hfull
    (by omega) hfit rfl rfl hsizes hlen
  rw [List.drop_zero] at hall
  rw [hpayload] at hall hiff
  exact ⟨hall, hiff⟩

theorem memory_limit_harmless_iff_sample :
    ∃ reader, Opens Stored.deps Stored.sampleConfig Stored.sampleBufs reader ∧
      ∃ r',
        readToEnd (List.replicate 8 3) ((reader.configured 2 64 none).withReadaheadMemoryLimit 7) =
        .ok (some [97, 98, 99, 100, 101, 102, 103]) r' := by
  obtain ⟨reader, hopens, hreads⟩ :=
    memory_limit_harmless_iff Stored.sample_withinLimits Stored.sample_codec (by decide)
      64 7 (show 2 < 2 ^ 64 by decide)
  obtain ⟨-, hiff⟩ := hreads (List.replicate 8 3) (by decide) (by decide)
  refine ⟨reader, hopens, hiff.mpr ?_⟩
  intro start hbatch hstart
  have hdvd : 2 ∣ start := hbatch
  have hlt : start < 4 := hstart
  obtain rfl | rfl : start = 0 ∨ start = 2 := by omega
  · decide
  · decide

/-- The second batch needs six bytes: with a limit
of six, the stream ends behind the first batch. -/
theorem memory_limit_ends_stream :
    WithinLimits Stored.deps (2 ^ 30) Stored.sampleConfig Stored.sampleBufs.flatten ∧
      Codec Stored.deps Stored.sampleConfig Stored.sampleBufs.flatten ∧
      ∃ reader, Opens Stored.deps Stored.sampleConfig Stored.sampleBufs reader ∧
        (∃ r', readToEnd (List.replicate 8 3) (reader.configured 2 64 none) =
          .ok (some [97, 98, 99, 100, 101, 102, 103]) r') ∧
        ∃ r', readToEnd (List.replicate 8 3)
          ((reader.configured 2 64 none).withReadaheadMemoryLimit 6) =
          .ok (some [97, 98, 99, 100]) r' := by
  refine ⟨Stored.sample_withinLimits, Stored.sample_codec, _,
    opens_written Stored.sample_withinLimits (by decide) Stored.sample_codec.compresses (by decide),
      ?_, ?_⟩
  · exact Program.exists_of_outcome (by decide +kernel)
  · exact Program.exists_of_outcome (by decide +kernel)

end Pgzf
