import Pgzf.Tracks

/-!
# Opening a file and reading it from the front

`new` on a file whose index can be built gives a reader at position 0. Read without seeks, such a
reader has cached nothing ahead of itself, so every refill is clean, and the reads deliver the
blocks from the first to the last, whatever the sizes of the buffers and of the cache.
-/

namespace Pgzf

open PgzfReader PgzfIndex BlockCursor

variable {D : Deps} {file : Bytes} {index : PgzfIndex} {blocks : List Bytes}

/-! ### Opening -/

variable (D) in
/-- What `new` makes of a source, with an index where there is the marker. -/
def PgzfReader.opened (inner : Source) (index : Option PgzfIndex) : PgzfReader D where
  inner := inner
  isPgzf := index.isSome
  index := index
  currentBlock := []
  currentPos := 0
  eof := false
  pendingSeek := none
  readahead := []
  readaheadSize := defaultReadahead
  readaheadMemoryLimit := none
  nextBlockIndex := 0
  blockCache := BlockCache.new D defaultBlockCacheCapacity

variable (D) in
def PgzfReader.fresh (file : Bytes) (index : PgzfIndex) : PgzfReader D :=
  opened D ⟨file, 0, []⟩ (some index)

/-- A reader with a readahead of `size` blocks and a cache
of `capacity` blocks, with or without a memory limit. -/
def PgzfReader.configured (r : PgzfReader D) (size capacity : Nat) (cacheLimit : Option Nat) :
    PgzfReader D :=
  match cacheLimit with
  | none => (r.withReadahead size).withBlockCache capacity
  | some maxBytes => (r.withReadahead size).withBlockCacheMemoryLimit capacity maxBytes

theorem new_eq (hbase : gzipBase <+: file)
    (hbuild : ∀ q, ∃ q', build ⟨file, q, []⟩ = .ok index ⟨file, q', []⟩) (q : Nat) :
    new D ⟨file, q, []⟩ = .ok (fresh D file index) ⟨file, 0, []⟩ := by
  obtain ⟨q', hindex⟩ := hbuild 0
  have hread := Source.readExact_prefix (show gzipBase <+: file.drop 0 from hbase)
  have hvalid : validateGzipHeader gzipBase = .ok (gzipFlgFextra, pgzfXflMarker) :=
    validateGzipHeader_base []
  rw [new, Program.bind_ok (Source.seekStart_apply _ _ _),
    show gzipFixedHeaderSize = gzipBase.length from rfl,
    Program.bind_ok hread, hvalid, Program.bind_ok (Prog.ofExcept_ok _ _)]
  simp only [isPgzfMember_marker, if_true]
  rw [Program.bind_ok (Source.seekStart_apply _ _ _), Program.bind_ok hindex,
    Program.bind_ok (Program.pure_apply _ _),
    Program.bind_ok (Source.seekStart_apply _ _ _), Program.bind_ok (Program.get_apply _),
      Program.pure_apply]
  rfl

theorem new_error {fault : Fault} {s' : Source} (hbase : gzipBase <+: file)
    (hbuild : build ⟨file, 0, []⟩ = .error fault s') (q : Nat) :
    new D ⟨file, q, []⟩ = .error fault s' := by
  have hread := Source.readExact_prefix (show gzipBase <+: file.drop 0 from hbase)
  have hvalid : validateGzipHeader gzipBase = .ok (gzipFlgFextra, pgzfXflMarker) :=
    validateGzipHeader_base []
  rw [new, Program.bind_ok (Source.seekStart_apply _ _ _),
    show gzipFixedHeaderSize = gzipBase.length from rfl,
    Program.bind_ok hread, hvalid, Program.bind_ok (Prog.ofExcept_ok _ _)]
  simp only [isPgzfMember_marker, if_true]
  rw [Program.bind_ok (Source.seekStart_apply _ _ _), Program.bind_error hbuild]

theorem new_eof (hshort : file.length < gzipFixedHeaderSize) (q : Nat) :
    new D ⟨file, q, []⟩ = .error (.error (.io .unexpectedEof)) ⟨file, file.length, []⟩ := by
  rw [new, Program.bind_ok (Source.seekStart_apply _ _ _),
    Program.bind_error (Source.readExact_eof (by simpa using hshort))]

/-- The reader of a file that its index describes stands at the front of the data. -/
theorem tracks_configured (D : Deps) (file : Bytes) (index : PgzfIndex) (blocks : List Bytes)
    (size capacity : Nat) (cacheLimit : Option Nat) :
    Tracks file index blocks ((fresh D file index).configured size capacity cacheLimit) 0 := by
  have hsize : 0 < max size 1 := by omega
  have hplaced : ∀ r : PgzfReader D, r.nextBlockIndex = 0 → r.readahead = [] → r.currentBlock = [] →
      r.eof = false → Positioned blocks r 0 0 := by
    intro r hnext hqueue hcurrent heof
    refine ⟨Nat.zero_le _, by rw [hnext]; exact Nat.zero_le _, by rw [hnext, hqueue]; simp, ?_,
      .inl hcurrent, ?_⟩
    · rw [hcurrent, List.length_nil, Nat.zero_sub, offset_zero]
    · intro h
      exact absurd h (by rw [heof]; simp)
  cases cacheLimit with
  | none =>
    exact ⟨⟨0, rfl⟩, rfl, rfl, hsize, BlockCache.sound_new _ _, Nat.zero_le _,
      fun _ h => absurd h (by simp [configured,
      withBlockCache, withReadahead, fresh, opened]), fun _ => ⟨0, hplaced _ rfl rfl rfl rfl⟩⟩
  | some maxBytes =>
    exact ⟨⟨0, rfl⟩, rfl, rfl, hsize, (BlockCache.sound_new _ _).withMemoryLimit _, Nat.zero_le _,
      fun _ h => absurd h
      (by simp [configured, withBlockCacheMemoryLimit, withReadahead, fresh, opened]),
        fun _ => ⟨0, hplaced _ rfl rfl rfl rfl⟩⟩

/-! ### Nothing cached ahead -/

/-- While no seek is pending and nothing from the next
block on is cached, a refill below the limit is clean. -/
theorem cleanRefill_of_ahead (index : PgzfIndex) {r : PgzfReader D} (hnone : r.pendingSeek = none)
    (hsize : 0 < r.readaheadSize)
    (hahead : ∀ i, r.blockCache.lookup i ≠ none → i < r.nextBlockIndex) (hbelow : BelowLimit r)
    (hfit : blocks.length + r.readaheadSize < 2 ^ 64) : CleanRefill index blocks r := by
  intro start hstart hlt
  have hnext : start = r.nextBlockIndex := by
    rw [refillStart, hnone] at hstart
    simp only at hstart
    split at hstart
    · exact absurd hstart (by simp)
    · exact (Option.some.inj hstart).symm
  refine ⟨hbelow, by omega, .inr ?_⟩
  by_contra hcached
  have := hahead _ hcached
  rw [batchStop] at this
  omega

/-- The reader has only gone forward, and no memory limit can stop it. -/
structure Sequential (file : Bytes) (index : PgzfIndex) (blocks : List Bytes) (r : PgzfReader D)
    (pos : Nat) :
    Prop where
  tracks : Tracks file index blocks r pos
  pendingSeek : r.pendingSeek = none
  unlimited : r.readaheadMemoryLimit = none
  ahead : ∀ i, r.blockCache.lookup i ≠ none → i < r.nextBlockIndex
  fits : blocks.length + r.readaheadSize < 2 ^ 64

theorem lookup_configured (r : PgzfReader D) (size capacity : Nat) (cacheLimit : Option Nat)
    (i : Nat) :
    (r.configured size capacity cacheLimit).blockCache.lookup i = none := by
  apply BlockCache.lookup_of_nil
  cases cacheLimit with
  | none => exact BlockCache.entryList_new capacity
  | some maxBytes => exact BlockCache.entryList_new capacity

theorem sequential_configured (blocks : List Bytes) {size : Nat} (capacity : Nat)
    (cacheLimit : Option Nat) (hsize : 0 < size) (hfit : blocks.length + size < 2 ^ 64) :
    Sequential file index blocks ((fresh D file index).configured size capacity cacheLimit) 0 := by
  have hmax : max size 1 = size := by omega
  have htracks := tracks_configured D file index blocks size capacity cacheLimit
  cases cacheLimit with
  | none =>
    exact ⟨htracks, rfl, rfl,
      fun i hi => absurd (lookup_configured _ _ _ _ i) hi, by rwa [← hmax] at hfit⟩
  | some maxBytes =>
    exact ⟨htracks, rfl, rfl,
      fun i hi => absurd (lookup_configured _ _ _ _ i) hi, by rwa [← hmax] at hfit⟩

theorem Sequential.read (hd : Describes D file index blocks) {r : PgzfReader D} {pos : Nat}
    (h : Sequential file index blocks r pos) {n : Nat} (hn : 0 < n) :
    ∃ r', PgzfReader.read n r = .ok (BlockCursor.read blocks pos n).1 r' ∧
      Sequential file index blocks r' (BlockCursor.read blocks pos n).2 := by
  have hbelow : BelowLimit r := fun limit hlimit => absurd (h.unlimited.symm.trans hlimit) (by simp)
  have hclean :=
    cleanRefill_of_ahead index h.pendingSeek h.tracks.readaheadSize h.ahead hbelow h.fits
  obtain ⟨r', hread, htracks, hframe⟩ := read_tracks hd h.tracks hclean (Nat.ne_of_gt hn)
  refine ⟨r', hread, htracks, hframe.pendingSeek, hframe.readaheadMemoryLimit.trans h.unlimited,
    fun i hi => ?_, ?_⟩
  · rcases hframe.cached i hi with hlt | hcached
    · exact hlt
    · exact Nat.lt_of_lt_of_le (h.ahead i hcached) (hframe.forward h.pendingSeek)
  · rw [hframe.readaheadSize]
    exact h.fits

theorem trace_read (blocks : List Bytes) (pos : Nat) (sizes : List Nat) :
    Program.trace (BlockCursor.read blocks) pos sizes = readAll blocks pos sizes := by
  induction sizes generalizing pos with
  | nil => rfl
  | cons n sizes ih => rw [Program.trace, ih, readAll]

theorem Sequential.reads (hd : Describes D file index blocks) {r : PgzfReader D} {pos : Nat}
    (h : Sequential file index blocks r pos) {sizes : List Nat} (hsizes : ∀ n ∈ sizes, 0 < n) :
    ∃ r', (sizes.mapM PgzfReader.read) r = .ok (readAll blocks pos sizes) r' := by
  have hstep : ∀ r pos n, Sequential file index blocks r pos → 0 < n →
      ∃ r', PgzfReader.read n r = .ok (BlockCursor.read blocks pos n).1 r' ∧
        Sequential file index blocks r' (BlockCursor.read blocks pos n).2 :=
          fun r pos n hr hn => hr.read hd hn
  obtain ⟨r', hrun, -⟩ :=
    Program.mapM_eq_trace hstep h (Program.allSteps_of_forall (fun _ => hsizes) r)
  exact ⟨r', by rw [hrun, trace_read]⟩

/-- What has been read to the end came from the first
read, and from the reads behind it unless it was empty. -/
theorem readToEnd_cons_eq_some {n : Nat} {sizes : List Nat} {r r' : PgzfReader D} {out : Bytes}
    (hrun : PgzfReader.readToEnd (n :: sizes) r = .ok (some out) r') :
    ∃ first mid, PgzfReader.read n r = .ok first mid ∧ (first = [] ∧ out = [] ∧ r' = mid ∨
      first ≠ [] ∧ ∃ rest, PgzfReader.readToEnd sizes mid = .ok (some rest) r' ∧
        out = first ++ rest) := by
  rw [PgzfReader.readToEnd] at hrun
  obtain ⟨first, mid, hread, hrest⟩ := Program.of_bind_ok hrun
  refine ⟨first, mid, hread, ?_⟩
  by_cases hnil : first = []
  · subst hnil
    obtain ⟨hout, hmid⟩ :=
      EStateM.Result.ok.inj (show EStateM.Result.ok (some []) mid = .ok (some out) r' from hrest)
    exact .inl ⟨rfl, (Option.some.inj hout).symm, hmid.symm⟩
  · have hempty : first.isEmpty = false := by simpa using hnil
    simp only [hempty, Bool.false_eq_true, if_false] at hrest
    obtain ⟨answer, last, hlast, hpure⟩ := Program.of_bind_ok hrest
    obtain ⟨hout, rfl⟩ := EStateM.Result.ok.inj hpure
    obtain ⟨rest, rfl, rfl⟩ := Option.map_eq_some_iff.mp hout
    exact .inr ⟨hnil, rest, hlast, rfl⟩

/-- Where every read answers as the cursor does, reading
to the end delivers everything from the position on. -/
theorem readToEnd_of_read {Inv : PgzfReader D → Nat → Prop}
    (hread : ∀ r pos n, Inv r pos → 0 < n → ∃ r', PgzfReader.read n r =
      .ok (BlockCursor.read blocks pos n).1 r' ∧ Inv r' (BlockCursor.read blocks pos n).2)
    {r : PgzfReader D} {pos : Nat} (h : Inv r pos) {sizes : List Nat} (hsizes : ∀ n ∈ sizes, 0 < n)
    (hlen : (blocks.flatten.drop pos).length < sizes.length) :
    ∃ r', PgzfReader.readToEnd sizes r = .ok (some (blocks.flatten.drop pos)) r' := by
  induction sizes generalizing r pos with
  | nil => exact absurd hlen (Nat.not_lt_zero _)
  | cons n sizes ih =>
    have hn := hsizes n List.mem_cons_self
    obtain ⟨mid, hmidRead, hmid⟩ := hread r pos n h hn
    have hsplit := read_append_drop blocks pos n
    rw [PgzfReader.readToEnd, Program.bind_ok hmidRead]
    by_cases hnil : (BlockCursor.read blocks pos n).1 = []
    · have hend := (read_fst_eq_nil_iff hn).mp hnil
      simp only [hnil, List.isEmpty_nil, if_true, Program.pure_apply, List.drop_eq_nil_of_le hend]
      exact ⟨mid, rfl⟩
    · have hpos := List.length_pos_iff.mpr hnil
      have hempty : (BlockCursor.read blocks pos n).1.isEmpty = false := by simpa using hnil
      have hlenSplit := congrArg List.length hsplit
      rw [List.length_append] at hlenSplit
      rw [List.length_cons] at hlen
      obtain ⟨r', hrest⟩ := ih hmid (fun m hm => hsizes m (List.mem_cons_of_mem _ hm)) (by omega)
      simp only [hempty, Bool.false_eq_true, if_false]
      rw [Program.bind_ok hrest, Program.pure_apply, Option.map_some, hsplit]
      exact ⟨r', rfl⟩

theorem Sequential.readToEnd (hd : Describes D file index blocks) {r : PgzfReader D} {pos : Nat}
    (h : Sequential file index blocks r pos) {sizes : List Nat} (hsizes : ∀ n ∈ sizes, 0 < n)
    (hlen : (blocks.flatten.drop pos).length < sizes.length) :
    ∃ r', PgzfReader.readToEnd sizes r = .ok (some (blocks.flatten.drop pos)) r' :=
  readToEnd_of_read (fun _ _ _ hr hn => hr.read hd hn) h hsizes hlen

theorem fresh_readToEnd (hd : Describes D file index blocks)
    (hfit : blocks.length + defaultReadahead < 2 ^ 64) {sizes : List Nat}
    (hsizes : ∀ n ∈ sizes, 0 < n) (hlen : blocks.flatten.length < sizes.length) :
    ∃ r', PgzfReader.readToEnd sizes (fresh D file index) = .ok (some blocks.flatten) r' := by
  have hseq : Sequential file index blocks (fresh D file index) 0 :=
    sequential_configured blocks defaultBlockCacheCapacity none (by decide) hfit
  exact hseq.readToEnd hd hsizes (by rwa [List.drop_zero])

end Pgzf
