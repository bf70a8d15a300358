import Pgzf.Fields
import Pgzf.Labels

/-!
# Calls on arbitrary bytes

Whatever bytes a file has, a call of the reader ends with a value or with an error of the crate,
unless it meets a member whose `ZC` is smaller than its own header. `Walks` says which members the
loops over raw blocks meet, and `Passes` that none of those a call would read is such a member.
-/

namespace Pgzf

open PgzfReader PgzfIndex Program

variable {D : Deps} {file : Bytes}

/-! ### Members -/

theorem memberAt_isError {p : Nat} {fault : Fault} (h : memberAt file p = .error fault)
    (hshort : ¬ ShortMember file p) :
    fault.IsError := by
  simp only [memberAt] at h
  split_ifs at h with hbase hxlen hextra hzero hlarge hheader hroom
  all_goals simp only [Except.error.injEq] at h
  · exact ⟨_, h.symm⟩
  · exact ⟨_, h.symm⟩
  · exact ⟨_, h.symm⟩
  · -- `ZC` is smaller than the header
    refine absurd ⟨?_, ?_, hheader⟩ hshort
    · rw [xlenAt]
      omega
    · rw [zcAt, xlenAt]
      exact Nat.pos_of_ne_zero fun hnil => hzero (UInt32.toNat_inj.mp hnil)
  · exact ⟨_, h.symm⟩

/-- What is returned as a raw block has the length
its own `ZC` says, and its header is part of it. -/
structure WellSized (block : RawBlock) : Prop where
  header_le : block.headerSize ≤ block.raw.length
  zc_eq : (rawTags (slice block.raw (gzipFixedHeaderSize + 2) block.headerSize)).zc.toNat =
    block.raw.length

theorem wellSized_of_memberAt {p : Nat} {block : RawBlock}
    (h : memberAt file p = .ok (some (block.raw, block.headerSize, block.blockType))) :
    WellSized block := by
  obtain ⟨raw, headerSize, ty, label⟩ := block
  simp only [memberAt] at h
  split_ifs at h with hbase hxlen hextra hzero hlarge hheader hroom
  all_goals simp only [Except.ok.injEq, Option.some.injEq, Prod.mk.injEq, reduceCtorEq] at h
  obtain ⟨rfl, rfl, -⟩ := h
  have hlen : ∀ n ≤ file.length - p, ((file.drop p).take n).length = n := by
    intro n hn
    rw [List.length_take, List.length_drop]
    omega
  constructor
  · simp only
    rw [hlen _ (by omega)]
    omega
  · simp only
    rw [hlen _ (by omega), slice, List.take_take, Nat.min_eq_left (by omega), List.drop_take,
      List.drop_drop, Nat.add_sub_cancel_left, ← Nat.add_assoc]

/-- A walk over members from `p` for `count` data blocks comes to `q`, where `left` of them are
still to be read. -/
inductive Walks (file : Bytes) : Nat → Nat → Nat → Nat → Prop
  | here (p count : Nat) : Walks file p count p count
  | idx {p count q left headerSize : Nat} {raw : Bytes} : memberAt file p =
    .ok (some (raw, headerSize, .idx)) →
      Walks file (p + raw.length) (count + 1) q left → Walks file p (count + 1) q left
  | data {p count q left headerSize : Nat} {raw : Bytes} {ty : BlockType} :
      memberAt file p = .ok (some (raw, headerSize, ty)) → ty ≠ .idx →
        Walks file (p + raw.length) count q left → Walks file p (count + 1) q left

/-- No member that is read on the way to `count` data blocks is a short one. -/
def NoShort (file : Bytes) (p count : Nat) : Prop :=
  ∀ q left, Walks file p count q (left + 1) → ¬ ShortMember file q

def Completes (file : Bytes) (p count : Nat) : Prop := ∃ q, Walks file p count q 0

/-! ### Raw reads -/

/-- The reader stands in the file, with what `new` found out and this readahead. -/
structure Opened (file : Bytes) (isPgzf : Bool) (index : Option PgzfIndex) (size : Nat)
    (r : PgzfReader D) : Prop where
  inner : ∃ p, r.inner = ⟨file, p, []⟩
  isPgzf_eq : r.isPgzf = isPgzf
  index_eq : r.index = index
  size_eq : r.readaheadSize = size

def Failed (file : Bytes) (isPgzf : Bool) (index : Option PgzfIndex) (size : Nat) (fault : Fault)
    (r : PgzfReader D) :
    Prop :=
  fault.IsError ∧ Opened file isPgzf index size r

section Calls

variable {isPgzf : Bool} {index : Option PgzfIndex} {size : Nat} {r : PgzfReader D}

theorem readOneRawBlock_post (h : Opened file isPgzf index size r) {p : Nat}
    (hin : r.inner = ⟨file, p, []⟩) (hshort : ¬ ShortMember file p) :
    Post (fun found r' => Opened file isPgzf index size r' ∧ ∀ block, found = some block →
        memberAt file p = .ok (some (block.raw, block.headerSize, block.blockType)) ∧
          r'.inner = ⟨file, p + block.raw.length, []⟩ ∧
            r'.nextBlockIndex = if block.blockType = .idx then r.nextBlockIndex
              else r.nextBlockIndex + 1)
      (Failed file isPgzf index size) (readOneRawBlock r) := by
  have hkeeps := readOneRawBlock_keeps (P := Opened file isPgzf index size) hin
    fun q _ => ⟨⟨q, rfl⟩, h.isPgzf_eq, h.index_eq, h.size_eq⟩
  exact hkeeps.mono (fun _ _ hfound => hfound) fun fault r' hfailed =>
    ⟨memberAt_isError hfailed.2 hshort, hfailed.1⟩

/-- The loop of a refill numbers the blocks it reads from the next one on. -/
theorem readRange_post {fuel : Nat} (h : Opened file isPgzf index size r) {p : Nat}
    (hin : r.inner = ⟨file, p, []⟩) (hfuel : file.length - p < fuel) {count : Nat}
    (hsafe : NoShort file p count) (allRaw : List (Nat × Bytes × Nat)) :
    Post (fun out r' => Opened file isPgzf index size r' ∧
        (∀ entry ∈ out.1, entry ∈ allRaw ∨ r.nextBlockIndex ≤ entry.1 ∧
          entry.1 < r.nextBlockIndex + count) ∧
          (out.2 = false → Completes file p count))
      (Failed file isPgzf index size) (readRange fuel count allRaw r) := by
  induction fuel generalizing r p count allRaw with
  | zero => exact absurd hfuel (Nat.not_lt_zero _)
  | succ fuel ih =>
    rw [readRange]
    cases count with
    | zero => exact ⟨h, fun entry hentry => .inl hentry, fun _ => ⟨p, .here p 0⟩⟩
    | succ count =>
      rw [if_neg (Nat.succ_ne_zero count)]
      apply (Prog.post_intoIo (readOneRawBlock_post h hin (hsafe p count (.here p _)))).bind
      rintro found r' ⟨h', hfound⟩
      cases found with
      | none => exact ⟨h', fun entry hentry => .inl hentry, by simp⟩
      | some block =>
        obtain ⟨hat, hin', hnext⟩ := hfound block rfl
        have hlen := length_of_memberAt hat
        simp only
        by_cases hidx : block.blockType = .idx
        · rw [if_pos hidx] at hnext ⊢
          rw [hidx] at hat
          refine (ih h' hin' (by omega) (fun q left hwalk => hsafe q left (.idx hat hwalk))
            allRaw).mono ?_ fun _ _ hR => hR
          rintro out last ⟨hlast, hout, hends⟩
          rw [hnext] at hout
          refine ⟨hlast, hout, fun hfalse => ?_⟩
          obtain ⟨q, hwalk⟩ := hends hfalse
          exact ⟨q, .idx hat hwalk⟩
        · rw [if_neg hidx] at hnext ⊢
          rw [bind_ok (get_apply _), hnext, Nat.add_sub_cancel]
          refine (ih h' hin' (by omega) (fun q left hwalk => hsafe q left (.data hat hidx hwalk))
            _).mono ?_ fun _ _ hR => hR
          rintro out last ⟨hlast, hout, hends⟩
          refine ⟨hlast, fun entry hentry => ?_, fun hfalse => ?_⟩
          · rcases hout entry hentry with hmem | hrange
            · rcases List.mem_append.mp hmem with hmem | hmem
              · exact .inl hmem
              · rw [List.mem_singleton.mp hmem]
                exact .inr ⟨Nat.le_refl _, by omega⟩
            · rw [hnext] at hrange
              exact .inr (by omega)
          · obtain ⟨q, hwalk⟩ := hends hfalse
            exact ⟨q, .data hat hidx hwalk⟩

theorem readBlocksLoop_post {fuel : Nat} (h : Opened file isPgzf index size r) {p : Nat}
    (hin : r.inner = ⟨file, p, []⟩) (hfuel : file.length - p < fuel) {count : Nat}
    (hsafe : NoShort file p count) (rawBatch : List (Bytes × Nat)) :
    Post (fun _ r' => Opened file isPgzf index size r') (Failed file isPgzf index size)
      (readBlocksLoop fuel count rawBatch r) := by
  induction fuel generalizing r p count rawBatch with
  | zero => exact absurd hfuel (Nat.not_lt_zero _)
  | succ fuel ih =>
    rw [readBlocksLoop]
    cases count with
    | zero => exact h
    | succ count =>
      rw [if_neg (Nat.succ_ne_zero count)]
      refine (readOneRawBlock_post h hin (hsafe p count (.here p _))).bind ?_
      rintro found r' ⟨h', hfound⟩
      cases found with
      | none => exact h'
      | some block =>
        obtain ⟨hat, hin', -⟩ := hfound block rfl
        have hlen := length_of_memberAt hat
        simp only
        by_cases hidx : block.blockType = .idx
        · rw [if_pos hidx]
          rw [hidx] at hat
          exact ih h' hin' (by omega) (fun q left hwalk => hsafe q left (.idx hat hwalk)) _
        · rw [if_neg hidx, Nat.add_sub_cancel]
          exact ih h' hin' (by omega) (fun q left hwalk => hsafe q left (.data hat hidx hwalk)) _

/-! ### Refills -/

/-- None of the ranges that a refill reads one after another has a short member in it; a range is
reached when all blocks of those in front of it are there. -/
def SafeRanges (file : Bytes) (index : PgzfIndex) : List (Nat × Nat) → Prop
  | [] => True
  | range :: rest =>
    NoShort file ((index.compressedOffset range.1).getD 0) (range.2 - range.1) ∧
      (Completes file ((index.compressedOffset range.1).getD 0) (range.2 - range.1) →
        SafeRanges file index rest)

theorem onInner_seekStart_post (h : Opened file isPgzf index size r) (offset : Nat) :
    Post (fun _ r' => r' = { r with inner := ⟨file, offset, []⟩ }) (Failed file isPgzf index size)
      (onInner (Source.seekStart offset) r) := by
  obtain ⟨p, hin⟩ := h.inner
  rw [onInner_seekStart hin offset]
  exact rfl

theorem readRanges_post (h : Opened file isPgzf index size r) {entries : PgzfIndex}
    {start stop : Nat} {ranges : List (Nat × Nat)}
    (hranges : ∀ range ∈ ranges, start ≤ range.1 ∧ range.1 < range.2 ∧ range.2 ≤ stop)
    (hsafe : SafeRanges file entries ranges) (allRaw : List (Nat × Bytes × Nat)) :
    Post (fun out r' => Opened file isPgzf index size r' ∧
        ∀ entry ∈ out.1, entry ∈ allRaw ∨ start ≤ entry.1 ∧ entry.1 < stop)
      (Failed file isPgzf index size)
      (readRanges (ranges.map fun range => (range, (entries.compressedOffset range.1).getD 0))
        allRaw r) := by
  induction ranges generalizing r allRaw with
  | nil => exact ⟨h, fun entry hentry => .inl hentry⟩
  | cons range rest ih =>
    obtain ⟨hnoshort, hnext⟩ := hsafe
    obtain ⟨hlo, hlt, hhi⟩ := hranges range List.mem_cons_self
    obtain ⟨first, last⟩ := range
    rw [List.map_cons, readRanges]
    apply (Prog.post_intoIo (onInner_seekStart_post h _)).bind
    rintro - r' rfl
    rw [bind_ok (modify_apply _ _), bind_ok (get_apply _)]
    refine (readRange_post (r := { r with
      inner := ⟨file, (entries.compressedOffset first).getD 0, []⟩, nextBlockIndex := first })
      ⟨⟨_, rfl⟩, h.isPgzf_eq, h.index_eq,
        h.size_eq⟩ rfl (Nat.lt_succ_of_le (Nat.sub_le _ _)) hnoshort allRaw).bind ?_
    rintro ⟨raws, ended⟩ r' ⟨h', hraws, hends⟩
    have hin : ∀ entry ∈ raws, entry ∈ allRaw ∨ start ≤ entry.1 ∧ entry.1 < stop := by
      intro entry hentry
      refine (hraws entry hentry).imp_right fun hrange => ?_
      simp only at hlo hlt hhi hrange
      omega
    cases ended with
    | true => exact ⟨h', hin⟩
    | false =>
      refine (ih h' (fun range hrange => hranges range (List.mem_cons_of_mem _ hrange))
        (hnext (hends rfl)) raws).mono ?_ fun _ _ hR => hR
      rintro out r'' ⟨h'', hout⟩
      exact ⟨h'', fun entry hentry => (hout entry hentry).elim (hin entry) .inr⟩

theorem map_fst_decompressAll {allRaw : List (Nat × Bytes × Nat)} {datas : List (Nat × Bytes)}
    (h : decompressAll D allRaw = .ok datas) : datas.map Prod.fst = allRaw.map Prod.fst := by
  induction allRaw generalizing datas with
  | nil =>
    obtain rfl := Except.ok.inj h
    rfl
  | cons entry rest ih =>
    obtain ⟨data, others, -, hrest, rfl⟩ := of_decompressAll_cons h
    rw [List.map_cons, List.map_cons, ih hrest]

theorem storeBlocks_post (h : Opened file isPgzf index size r) {start : Nat}
    {datas : List (Nat × Bytes)} {results : List (Option Bytes)}
    (hin : ∀ entry ∈ datas, start ≤ entry.1 ∧ entry.1 < start + results.length) :
    Post (fun _ r' => Opened file isPgzf index size r') (Failed file isPgzf index size)
      (storeBlocks start datas results r) := by
  induction datas generalizing r results with
  | nil => exact h
  | cons entry rest ih =>
    obtain ⟨i, data⟩ := entry
    obtain ⟨hlo, hhi⟩ := hin (i, data) List.mem_cons_self
    simp only at hlo hhi
    rw [storeBlocks, bind_ok (modify_apply _ _), if_neg (by omega)]
    apply ih
    · exact ⟨h.inner, h.isPgzf_eq, h.index_eq, h.size_eq⟩
    · intro entry hentry
      rw [List.length_set]
      exact hin entry (List.mem_cons_of_mem _ hentry)

/-- A refill that meets no short member. -/
theorem fetchBatch_post (h : Opened file isPgzf index size r) {entries : PgzfIndex}
    {start stop : Nat}
    (hsafe : SafeRanges file entries (groupContiguous (missing r.blockCache start stop))) :
    Post (fun _ r' => Opened file isPgzf index size r') (Failed file isPgzf index size)
      (fetchBatch entries start stop r) := by
  -- phase 3 touches neither the source nor the settings
  have hphase3 : ∀ (results : List (Option Bytes)) (hitEof : Bool) (r' : PgzfReader D),
      Opened file isPgzf index size r' → Post (fun _ last => Opened file isPgzf index size last)
        (Failed file isPgzf index size) (assemble entries stop results hitEof r') := by
    intro results hitEof r' h'
    rw [assemble, bind_ok (modify_apply _ _), bind_ok (get_apply _)]
    split
    · exact ⟨h'.inner, h'.isPgzf_eq, h'.index_eq, h'.size_eq⟩
    · exact ⟨h'.inner, h'.isPgzf_eq, h'.index_eq, h'.size_eq⟩
  have hset : Opened file isPgzf index size
      { r with blockCache := lookedUp r.blockCache start stop } :=
    ⟨h.inner, h.isPgzf_eq, h.index_eq, h.size_eq⟩
  rw [fetchBatch_apply]
  split
  · exact hphase3 _ _ _ ⟨hset.inner, hset.isPgzf_eq, hset.index_eq, hset.size_eq⟩
  · rw [fetchMissing]
    apply (readRanges_post hset (fun range hrange => groupContiguous_missing hrange) hsafe []).bind
    rintro ⟨allRaw, ended⟩ r' ⟨h', hraws⟩
    apply (Prog.post_ofExcept (decompressAll D allRaw) h').bind
    rintro datas s' ⟨hdatas, rfl⟩
    refine (storeBlocks_post h' ?_).bind ?_
    · intro entry hentry
      have hmem : entry.1 ∈ allRaw.map Prod.fst := by
        rw [← map_fst_decompressAll hdatas]
        exact List.mem_map_of_mem hentry
      obtain ⟨raw, hraw, hfst⟩ := List.mem_map.mp hmem
      have hrange := (hraws raw hraw).resolve_left List.not_mem_nil
      rw [List.length_map, List.length_range', ← hfst]
      omega
    · intro results r'' h''
      apply (Prog.post_intoIo (onInner_seekStart_post h'' _)).bind
      rintro - last rfl
      rw [bind_ok (modify_apply _ _)]
      exact hphase3 _ _ _ ⟨⟨_, rfl⟩, h''.isPgzf_eq, h''.index_eq, h''.size_eq⟩

/-- What `new` leaves behind: the index of a PGZF file, with one offset more than blocks. -/
structure Scanned (isPgzf : Bool) (index : Option PgzfIndex) (size : Nat) : Prop where
  isSome : isPgzf = true → index.isSome
  offsets : ∀ entries, index = some entries →
    entries.compressedOffsets.length = entries.blockCount + 1
  fits : ∀ entries, index = some entries → entries.blockCount + size < 2 ^ 64

/-- The batch of a refill that starts at block `start` has no short member in its way. -/
def CleanBatch (file : Bytes) (entries : PgzfIndex) (r : PgzfReader D) (start : Nat) : Prop :=
  SafeRanges file entries (groupContiguous
    (missing r.blockCache start (min entries.blockCount (start + r.readaheadSize))))

theorem fillReadahead_post (hs : Scanned isPgzf index size) (h : Opened file isPgzf index size r)
    (hclean : ∀ entries, r.index = some entries → r.readahead = [] →
      (∀ limit, r.readaheadMemoryLimit = some limit → r.totalMemoryUsage < limit) →
      r.nextBlockIndex < entries.blockCount → CleanBatch file entries r r.nextBlockIndex) :
    Post (fun _ r' => Opened file isPgzf index size r') (Failed file isPgzf index size)
      (fillReadahead r) := by
  rw [fillReadahead, bind_ok (get_apply _)]
  split
  · exact h
  · split
    · exact h
    · rename_i hqueue
      split
      · exact h
      · rename_i hlimit
        cases hindex : r.index with
        | none => exact h
        | some entries =>
          simp only
          split
          · exact ⟨h.inner, h.isPgzf_eq, hindex.symm.trans h.index_eq, h.size_eq⟩
          · rename_i hlt
            have hbelow : ∀ limit, r.readaheadMemoryLimit = some limit →
                r.totalMemoryUsage < limit := by
              intro limit hcase
              rw [hcase] at hlimit
              simpa using hlimit
            have hfit := hs.fits entries (h.index_eq ▸ hindex)
            rw [bind_ok (addU64_of_lt (by rw [h.size_eq]; omega) _)]
            exact fetchBatch_post h (hclean entries hindex (by simpa using hqueue) hbelow
              (Nat.not_le.mp hlt))

/-! ### Reads -/

def PassesSeek (file : Bytes) (r : PgzfReader D) : Prop :=
  ∀ target entries i skip, r.pendingSeek = some target → r.index = some entries →
    entries.seekByte D target = .ok (i, skip) → r.blockCache.lookup i = none →
      i < entries.blockCount →
      (∀ limit, r.readaheadMemoryLimit = some limit → r.blockCache.memoryUsage < limit) →
        CleanBatch file entries r i

/-- The refill that a read needs when it has nothing to serve. -/
def PassesServe (file : Bytes) (r : PgzfReader D) : Prop :=
  ∀ entries, r.index = some entries → r.currentBlock.length ≤ r.currentPos → r.eof = false →
    r.readahead = [] → (∀ limit, r.readaheadMemoryLimit = some limit → r.totalMemoryUsage < limit) →
      r.nextBlockIndex < entries.blockCount → CleanBatch file entries r r.nextBlockIndex

theorem executePendingSeek_post (hs : Scanned isPgzf index size)
    (h : Opened file isPgzf index size r) (hpass : PassesSeek file r) :
    Post (fun _ r' => Opened file isPgzf index size r') (Failed file isPgzf index size)
      (executePendingSeek r) := by
  obtain ⟨p, hin⟩ := h.inner
  rw [executePendingSeek, bind_ok (get_apply _)]
  cases hpending : r.pendingSeek with
  | none => exact h
  | some target =>
    simp only
    rw [bind_ok (set_apply _ _)]
    cases hindex : r.index with
    | none => exact ⟨⟨_, rfl⟩, h.inner, h.isPgzf_eq, hindex.symm.trans h.index_eq, h.size_eq⟩
    | some entries =>
      have hentries : index = some entries := h.index_eq ▸ hindex
      simp only
      cases hseek : entries.seekByte D target with
      | error e => exact ⟨⟨_, rfl⟩, h.inner, h.isPgzf_eq, hentries.symm, h.size_eq⟩
      | ok found =>
        obtain ⟨i, skip⟩ := found
        simp only
        rw [bind_ok (modify_apply _ _), bind_ok (get_apply _)]
        simp only
        rw [bind_ok (set_apply _ _)]
        cases hlookup : (r.blockCache.get i).1 with
        | some data =>
          simp only
          rw [bind_ok (modify_apply _ _), bind_ok (onInner_seekStart (by exact hin) _)]
          exact ⟨⟨_, rfl⟩, h.isPgzf_eq, hentries.symm, h.size_eq⟩
        | none =>
          simp only
          cases hoffset : entries.compressedOffset i with
          | none => exact ⟨⟨_, rfl⟩, h.inner, h.isPgzf_eq, hentries.symm, h.size_eq⟩
          | some offset =>
            simp only
            rw [bind_ok (onInner_seekStart (by exact hin) _), bind_ok (modify_apply _ _)]
            have hfront : Opened file isPgzf index size { r with
                inner := ⟨file, offset, []⟩, index := some entries,
                currentBlock := [], currentPos := 0, eof := false
                pendingSeek := none, readahead := [], nextBlockIndex := i, blockCache :=
                  (r.blockCache.get i).2 } :=
              ⟨⟨offset, rfl⟩, h.isPgzf_eq, hentries.symm, h.size_eq⟩
            refine (fillReadahead_post hs hfront ?_).bind ?_
            · intro entries' hsame _ hlimit hlt
              obtain rfl := Option.some.inj hsame
              rw [CleanBatch, missing_congr (BlockCache.lookup_get r.blockCache i)]
              refine hpass target entries i skip hpending hindex hseek hlookup hlt
                fun limit hcase => ?_
              have hbelow := hlimit limit hcase
              rwa [totalMemoryUsage, readaheadMemoryUsage, List.map_nil, List.sum_nil,
                List.length_nil, BlockCache.memoryUsage_get] at hbelow
            · rintro - r' h'
              rw [bind_ok (get_apply _)]
              cases r'.readahead with
              | nil => exact ⟨h'.inner, h'.isPgzf_eq, h'.index_eq, h'.size_eq⟩
              | cons buf rest => exact ⟨h'.inner, h'.isPgzf_eq, h'.index_eq, h'.size_eq⟩

def SourceFailed (file : Bytes) (fault : Fault) (s : Source) : Prop :=
  fault.IsError ∧ ∃ q, s = ⟨file, q, []⟩

theorem readExact_post (file : Bytes) (p n : Nat) :
    Post (fun out s => n ≤ file.length - p ∧ out = (file.drop p).take n ∧ s = ⟨file, p + n, []⟩)
      (SourceFailed file)
      (Source.readExact n ⟨file, p, []⟩) := by
  by_cases hroom : n ≤ file.length - p
  · rw [Source.readExact_ok hroom]
    exact ⟨hroom, rfl, rfl⟩
  · rw [Source.readExact_eof (Nat.not_le.mp hroom)]
    exact ⟨⟨_, rfl⟩, _, rfl⟩

theorem ofExcept_post {α : Type} (result : Except PgzfError α) (file : Bytes) (p : Nat) :
    Post (fun a s => result = .ok a ∧ s = ⟨file, p, []⟩) (SourceFailed file)
      (Prog.ofExcept result ⟨file, p, []⟩) :=
  Prog.post_ofExcept result ⟨p, rfl⟩

/-- The sequential block reader never panics, and a block
it returns is behind the position it started from. -/
theorem readPgzfBlock_post (D : Deps) (file : Bytes) (p : Nat) :
    Post (fun found s => ∃ q, s = ⟨file, q, []⟩ ∧ (found.isSome → p < q ∧ q ≤ file.length))
      (SourceFailed file)
      (readPgzfBlock D ⟨file, p, []⟩) := by
  rw [readPgzfBlock]
  refine (Prog.post_attempt (S := fun result s => ∃ q, s = ⟨file, q, []⟩ ∧ ∀ out, result = .ok out →
    gzipFixedHeaderSize ≤ file.length - p ∧ q = p + gzipFixedHeaderSize)
      (readExact_post file p gzipFixedHeaderSize)
    ?_ ?_).bind ?_
  · rintro out s ⟨hroom, -, rfl⟩
    exact ⟨_, rfl, fun _ _ => ⟨hroom, rfl⟩⟩
  · rintro e s ⟨-, q, rfl⟩
    exact ⟨q, rfl, fun out hout => absurd hout (by simp)⟩
  rintro result s ⟨q, rfl, hfound⟩
  cases result with
  | error e =>
    cases e with
    | io e =>
      simp only
      split
      · exact ⟨q, rfl, fun hsome => absurd hsome (by simp)⟩
      · exact ⟨⟨_, rfl⟩, q, rfl⟩
    | _ => exact ⟨⟨_, rfl⟩, q, rfl⟩
  | ok headerBuf =>
    obtain ⟨hroom, rfl⟩ := hfound headerBuf rfl
    simp only
    apply (ofExcept_post _ file _).bind
    rintro ⟨flg, xfl⟩ s ⟨-, rfl⟩
    apply (readExact_post file _ 2).bind
    rintro xlenBuf s ⟨hxlen, -, rfl⟩
    apply (readExact_post file _ _).bind
    rintro extra s ⟨hextra, -, rfl⟩
    apply (ofExcept_post _ file _).bind
    rintro field s ⟨-, rfl⟩
    refine Post.ite (fun _ => ⟨⟨_, rfl⟩, _, rfl⟩) fun _ => ?_
    refine (readExact_post file _ _).bind ?_
    rintro deflateData s ⟨hdata, -, rfl⟩
    apply (readExact_post file _ pgzfTailSize).bind
    rintro trailer s ⟨htail, -, rfl⟩
    have hforward : p < p + gzipFixedHeaderSize + 2 + (readU16Le xlenBuf).toNat := by
      rw [gzipFixedHeaderSize]
      omega
    rw [pgzfTailSize] at htail ⊢
    refine Post.ite (fun _ => ⟨_, rfl, fun _ => by omega⟩) fun _ => ?_
    refine (ofExcept_post _ file _).bind ?_
    rintro output s ⟨-, rfl⟩
    exact Post.ite (fun _ => ⟨⟨_, rfl⟩, _, rfl⟩) fun _ => ⟨_, rfl, fun _ => by omega⟩

/-- Nor does the loop over the blocks of a file without the PGZF marker, and it comes to an end. -/
theorem advanceSequentialLoop_post {fuel : Nat} (h : Opened file isPgzf index size r) {p : Nat}
    (hin : r.inner = ⟨file, p, []⟩) (hfuel : file.length - p < fuel) :
    Post (fun _ r' => Opened file isPgzf index size r') (Failed file isPgzf index size)
      (advanceSequentialLoop fuel r) := by
  induction fuel generalizing r p with
  | zero => exact absurd hfuel (Nat.not_lt_zero _)
  | succ fuel ih =>
    rw [advanceSequentialLoop]
    have hblock : Post (fun found r' => Opened file isPgzf index size r' ∧ ∃ q,
        r'.inner = ⟨file, q, []⟩ ∧
        (found.isSome → p < q ∧ q ≤ file.length)) (Failed file isPgzf index size)
            (onInner (readPgzfBlock D) r) := by
      refine Post.onPart (by rw [hin]; exact readPgzfBlock_post D file p) ?_ ?_
      · rintro found s ⟨q, rfl, hsome⟩
        exact ⟨⟨⟨q, rfl⟩, h.isPgzf_eq, h.index_eq, h.size_eq⟩, q, rfl, hsome⟩
      · rintro fault s ⟨herror, q, rfl⟩
        exact ⟨herror, ⟨q, rfl⟩, h.isPgzf_eq, h.index_eq, h.size_eq⟩
    apply (Prog.post_intoIo hblock).bind
    rintro found r' ⟨h', q, hin', hsome⟩
    cases found with
    | none => exact ⟨h'.inner, h'.isPgzf_eq, h'.index_eq, h'.size_eq⟩
    | some found =>
      obtain ⟨data, blockType, zc⟩ := found
      obtain ⟨hlt, hle⟩ := hsome rfl
      simp only
      split
      · exact ih h' hin' (by omega)
      · split
        · exact ⟨h'.inner, h'.isPgzf_eq, h'.index_eq, h'.size_eq⟩
        · exact ⟨h'.inner, h'.isPgzf_eq, h'.index_eq, h'.size_eq⟩

theorem serveNext_post (h : Opened file isPgzf index size r) (n : Nat) :
    Post (fun found r' => Opened file isPgzf index size r' ∧
      (found = none → r' = r ∧ r.readahead = []))
      (Failed file isPgzf index size) (serveNext n r) := by
  cases hqueue : r.readahead with
  | nil =>
    rw [serveNext_nil hqueue]
    exact ⟨h, fun _ => ⟨rfl, rfl⟩⟩
  | cons next rest =>
    rw [serveNext_cons hqueue]
    exact ⟨⟨h.inner, h.isPgzf_eq, h.index_eq, h.size_eq⟩, fun hnone => absurd hnone (by simp)⟩

/-- What follows the pending seek in `read`. -/
theorem read_post (hs : Scanned isPgzf index size) (h : Opened file isPgzf index size r) {n : Nat}
    (hseek : 0 < n → PassesSeek file r)
    (hserve : 0 < n → ∀ mid, executePendingSeek r = .ok () mid → PassesServe file mid) :
    Post (fun _ r' => Opened file isPgzf index size r') (Failed file isPgzf index size)
      (PgzfReader.read n r) := by
  rw [PgzfReader.read]
  by_cases hn : n = 0
  · rw [if_pos hn]
    exact h
  · rw [if_neg hn]
    have hpending := executePendingSeek_post hs h (hseek (Nat.pos_of_ne_zero hn))
    cases hrun : executePendingSeek r with
    | error fault mid =>
      rw [hrun] at hpending
      rw [bind_error hrun]
      exact hpending
    | ok u mid =>
      rw [hrun] at hpending
      have hmid : Opened file isPgzf index size mid := hpending
      have hpass := hserve (Nat.pos_of_ne_zero hn) mid hrun
      rw [bind_ok hrun, bind_ok (get_apply _)]
      split
      · exact ⟨hmid.inner, hmid.isPgzf_eq, hmid.index_eq, hmid.size_eq⟩
      · rename_i hleft
        split
        · exact hmid
        · rename_i heof
          rw [readNextBlock, bind_ok (get_apply _)]
          split
          · apply (serveNext_post hmid n).bind
            rintro found r' ⟨h', hnone⟩
            cases found with
            | some out => exact h'
            | none =>
              obtain ⟨rfl, hqueue⟩ := hnone rfl
              simp only
              refine (fillReadahead_post hs h' fun entries hentries hempty hlimit hlt =>
                hpass entries hentries (Nat.not_lt.mp hleft)
                  (by simpa using heof) hempty hlimit hlt).bind ?_
              rintro - filled hfilled
              apply (serveNext_post hfilled n).bind
              rintro found last ⟨hlast, -⟩
              cases found with
              | some out => exact hlast
              | none => exact ⟨hlast.inner, hlast.isPgzf_eq, hlast.index_eq, hlast.size_eq⟩
          · obtain ⟨p, hin⟩ := hmid.inner
            have hadvance : Post (fun _ r' => Opened file isPgzf index size r')
                (Failed file isPgzf index size) (advanceToNextBlockSequential mid) := by
              rw [advanceToNextBlockSequential, bind_ok (get_apply _), hin]
              exact advanceSequentialLoop_post hmid hin (Nat.lt_succ_of_le (Nat.sub_le _ _))
            apply hadvance.bind
            rintro - r' h'
            rw [bind_ok (get_apply _)]
            split
            · exact h'
            · exact ⟨h'.inner, h'.isPgzf_eq, h'.index_eq, h'.size_eq⟩

theorem readBlocks_post (hs : Scanned isPgzf index size) (h : Opened file isPgzf index size r)
    {start count : Nat} (hfit : start + count < 2 ^ 64)
    (hpass : ∀ entries, r.index = some entries → start < entries.blockCount → NoShort file
      ((entries.compressedOffset start).getD 0) (min entries.blockCount (start + count) - start)) :
    Post (fun _ r' => Opened file isPgzf index size r') (Failed file isPgzf index size)
      (readBlocks start count r) := by
  rw [readBlocks, bind_ok (get_apply _)]
  refine Post.ite (fun _ => ⟨⟨_, rfl⟩, h⟩) fun hpgzf => ?_
  have hsome := hs.isSome (by rw [← h.isPgzf_eq]; simpa using hpgzf)
  rw [← h.index_eq] at hsome
  obtain ⟨entries, hindex⟩ := Option.isSome_iff_exists.mp hsome
  have hentries : index = some entries := h.index_eq ▸ hindex
  simp only [hindex]
  refine Post.ite (fun _ => ⟨⟨_, rfl⟩, h⟩) fun hlt => ?_
  rw [ge_iff_le, Nat.not_le] at hlt
  have hnoshort := hpass entries hindex hlt
  rw [bind_ok (addU64_of_lt hfit _)]
  refine Post.ite (fun _ => h) fun _ => ?_
  have hbound : start < entries.compressedOffsets.length := by
    rw [hs.offsets entries hentries]
    omega
  have hoffset : entries.compressedOffset start = some entries.compressedOffsets[start] :=
    List.getElem?_eq_getElem hbound
  rw [hoffset, Option.getD_some] at hnoshort
  simp only [hoffset]
  apply (onInner_seekStart_post h _).bind
  rintro - r' rfl
  rw [bind_ok (modify_apply _ _), bind_ok (get_apply _)]
  refine (readBlocksLoop_post (r := { r with
      inner := ⟨file, entries.compressedOffsets[start], []⟩, nextBlockIndex := start })
    ⟨⟨_, rfl⟩, h.isPgzf_eq, h.index_eq, h.size_eq⟩ rfl (Nat.lt_succ_of_le (Nat.sub_le _ _)) hnoshort
      []).bind ?_
  intro rawBatch r'' h''
  apply (Prog.post_ofExcept _ h'').bind
  rintro datas last ⟨-, rfl⟩
  rw [bind_ok (modify_apply _ _)]
  exact ⟨h''.inner, h''.isPgzf_eq, h''.index_eq, h''.size_eq⟩

theorem seekToByte_post (h : Opened file isPgzf index size r) (offset : Nat) :
    Post (fun _ r' => Opened file isPgzf index size r') (Failed file isPgzf index size)
      (seekToByte offset r) := by
  rw [seekToByte, bind_ok (get_apply _)]
  exact Post.ite (fun _ => ⟨⟨_, rfl⟩, h⟩) fun _ => ⟨h.inner, h.isPgzf_eq, h.index_eq, h.size_eq⟩

end Calls

end Pgzf
