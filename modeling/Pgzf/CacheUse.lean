import Pgzf.Answers
import Pgzf.CacheLimit
import Pgzf.Seeking

/-!
# How the reader uses its cache

Whatever a reader is called for, on whatever file, it looks blocks up in its cache and stores blocks
of the file in it, and does nothing else with it. So what the two calls keep true of a cache holds
of the cache of every reader.
-/

namespace Pgzf

open PgzfReader Program

variable {D : Deps} {file : Bytes} {H : BlockCache D → Prop} {r r' : PgzfReader D}

def DataMemberAt (file raw : Bytes) (headerSize : Nat) : Prop :=
  ∃ p ty, memberAt file p = .ok (some (raw, headerSize, ty)) ∧ ty ≠ .idx

def BlockOf (D : Deps) (file data : Bytes) : Prop :=
  ∃ raw headerSize, DataMemberAt file raw headerSize ∧
    decompressRawBlockWith D raw headerSize = .ok data

structure CacheClosed (D : Deps) (file : Bytes) (H : BlockCache D → Prop) : Prop where
  get : ∀ cache i, H cache → H (cache.get i).2
  insert : ∀ cache i data, H cache → BlockOf D file data → H (cache.insert i data)

structure CacheKept (file : Bytes) (H : BlockCache D → Prop) (r : PgzfReader D) : Prop where
  inner : ∃ p, r.inner = ⟨file, p, []⟩
  cache : H r.blockCache

theorem CacheKept.of_eq (h : CacheKept file H r) (hinner : r'.inner = r.inner)
    (hcache : r'.blockCache = r.blockCache) :
    CacheKept file H r' :=
  ⟨hinner ▸ h.inner, hcache ▸ h.cache⟩

theorem CacheKept.post_ofExcept (h : CacheKept file H r) {α : Type} (result : Except PgzfError α) :
    Post (fun a r' => result = .ok a ∧ r' = r) (fun _ r' => CacheKept file H r')
      (Prog.ofExcept result r) :=
  (Prog.post_ofExcept result h).mono (fun _ _ hQ => hQ) fun _ _ hR => hR.2

/-! ### Raw reads -/

theorem CacheKept.seekStart (h : CacheKept file H r) (offset : Nat) :
    Stays (CacheKept file H) (onInner (Source.seekStart offset) r) := by
  obtain ⟨p, hin⟩ := h.inner
  rw [onInner_seekStart hin offset]
  exact ⟨⟨_, rfl⟩, h.cache⟩

theorem CacheKept.readOneRawBlock (h : CacheKept file H r) :
    Post (fun found r' => CacheKept file H r' ∧ ∀ block, found = some block →
      block.blockType ≠ .idx →
      DataMemberAt file block.raw block.headerSize) (fun _ r' => CacheKept file H r')
        (PgzfReader.readOneRawBlock r) := by
  obtain ⟨p, hin⟩ := h.inner
  have hkeeps := readOneRawBlock_keeps (P := CacheKept file H) hin fun q _ => ⟨⟨q, rfl⟩, h.cache⟩
  refine hkeeps.mono (fun found r' hfound => ⟨hfound.1, ?_⟩) fun _ _ hfailed => hfailed.1
  intro block hblock hdata
  exact ⟨p, block.blockType, (hfound.2 block hblock).1, hdata⟩

theorem walkInvariant_cacheKept (file : Bytes) (H : BlockCache D → Prop) :
    WalkInvariant (CacheKept file H) (DataMemberAt file) where
  raw h := h.readOneRawBlock
  seekStart offset h := h.seekStart offset
  counted _ h := h.of_eq rfl rfl

/-! ### Refills -/

theorem blockOf_decompressAll {allRaw : List (Nat × Bytes × Nat)} {datas : List (Nat × Bytes)}
    (hraw : ∀ entry ∈ allRaw, DataMemberAt file entry.2.1 entry.2.2)
    (h : decompressAll D allRaw = .ok datas) :
    ∀ entry ∈ datas, BlockOf D file entry.2 := by
  induction allRaw generalizing datas with
  | nil =>
    obtain rfl := Except.ok.inj h
    exact fun entry hentry => absurd hentry List.not_mem_nil
  | cons first rest ih =>
    obtain ⟨i, raw, headerSize⟩ := first
    obtain ⟨data, others, hdata, hrest, rfl⟩ := of_decompressAll_cons h
    intro entry hentry
    rcases List.mem_cons.mp hentry with rfl | hentry
    · exact ⟨raw, headerSize, hraw _ List.mem_cons_self, hdata⟩
    · exact ih (fun e he => hraw e (List.mem_cons_of_mem _ he)) hrest entry hentry

theorem CacheKept.storeBlocks (hc : CacheClosed D file H) (h : CacheKept file H r) (start : Nat)
    {datas : List (Nat × Bytes)} (hdatas : ∀ entry ∈ datas, BlockOf D file entry.2)
    (results : List (Option Bytes)) :
    Stays (CacheKept file H) (PgzfReader.storeBlocks start datas results r) := by
  induction datas generalizing r results with
  | nil => exact h
  | cons entry rest ih =>
    obtain ⟨i, data⟩ := entry
    rw [PgzfReader.storeBlocks, bind_ok (modify_apply _ _)]
    have hstored : CacheKept file H { r with blockCache := r.blockCache.insert i data } :=
      ⟨h.inner, hc.insert _ i data h.cache (hdatas _ List.mem_cons_self)⟩
    exact Post.ite (fun _ => hstored) fun _ =>
      ih hstored (fun e he => hdatas e (List.mem_cons_of_mem _ he)) _

theorem CacheClosed.cacheLookups (hc : CacheClosed D file H) (batch : List Nat)
    {cache : BlockCache D} (h : H cache) :
    H (cacheLookups batch cache).2 := by
  induction batch generalizing cache with
  | nil => exact h
  | cons i rest ih => exact ih (hc.get cache i h)

theorem CacheKept.fetchBatch (hc : CacheClosed D file H) (h : CacheKept file H r)
    (index : PgzfIndex) (start stop : Nat) :
    Stays (CacheKept file H) (PgzfReader.fetchBatch index start stop r) := by
  have hlooked : H (lookedUp r.blockCache start stop) :=
    hc.cacheLookups _ (hc.cacheLookups _ h.cache)
  have hphase3 : ∀ (results : List (Option Bytes)) (hitEof : Bool) (mid : PgzfReader D),
      CacheKept file H mid → Stays (CacheKept file H) (assemble index stop results hitEof mid) := by
    intro results hitEof mid hmid
    rw [assemble, bind_ok (modify_apply _ _), bind_ok (get_apply _)]
    exact Post.ite (fun _ => hmid.of_eq rfl rfl) fun _ => hmid.of_eq rfl rfl
  rw [fetchBatch_apply]
  split
  · exact hphase3 _ _ _ ⟨h.inner, hlooked⟩
  · rw [fetchMissing]
    have hset : CacheKept file H { r with blockCache := lookedUp r.blockCache start stop } :=
      ⟨h.inner, hlooked⟩
    refine ((walkInvariant_cacheKept file H).readRanges hset _ fun entry hentry =>
      absurd hentry List.not_mem_nil).bind ?_
    rintro ⟨allRaw, ended⟩ mid ⟨hmid, hraws⟩
    apply (hmid.post_ofExcept (decompressAll D allRaw)).bind
    intro datas same hsame
    obtain ⟨hdatas, rfl⟩ := hsame
    apply (hmid.storeBlocks hc start (blockOf_decompressAll hraws hdatas) _).bind
    intro results last hlast
    apply (Prog.post_intoIo_state (hlast.seekStart _)).bind
    intro _ behind hbehind
    rw [bind_ok (modify_apply _ _)]
    exact hphase3 _ _ _ (hbehind.of_eq rfl rfl)

theorem CacheKept.fillReadahead (hc : CacheClosed D file H) (h : CacheKept file H r) :
    Stays (CacheKept file H) (PgzfReader.fillReadahead r) := by
  rw [PgzfReader.fillReadahead, bind_ok (get_apply _)]
  refine Post.ite (fun _ => h) fun _ => Post.ite (fun _ => h) fun _ =>
    Post.ite (fun _ => h) fun _ => ?_
  cases r.index with
  | none => exact h
  | some index =>
    refine Post.ite (fun _ => h.of_eq rfl rfl) fun _ => Post.bind (Q := fun _ mid => mid = r) ?_ ?_
    · rw [addU64]
      exact Post.ite (fun _ => rfl) fun _ => h
    · intro limit same hsame
      subst hsame
      exact h.fetchBatch hc index _ _

/-! ### Reads -/

theorem CacheKept.executePendingSeek (hc : CacheClosed D file H) (h : CacheKept file H r) :
    Stays (CacheKept file H) (PgzfReader.executePendingSeek r) := by
  rw [PgzfReader.executePendingSeek, bind_ok (get_apply _)]
  cases r.pendingSeek with
  | none => exact h
  | some target =>
    simp only
    rw [bind_ok (set_apply _ _)]
    cases r.index with
    | none => exact h.of_eq rfl rfl
    | some index =>
      simp only
      cases index.seekByte D target with
      | error e => exact h.of_eq rfl rfl
      | ok found =>
        obtain ⟨i, skip⟩ := found
        simp only
        rw [bind_ok (modify_apply _ _), bind_ok (get_apply _)]
        simp only
        rw [bind_ok (set_apply _ _)]
        have hgot : H (r.blockCache.get i).2 := hc.get _ i h.cache
        cases (r.blockCache.get i).1 with
        | some data =>
          simp only
          rw [bind_ok (modify_apply _ _)]
          refine (CacheKept.seekStart ?_ _).bind fun _ mid hmid => ?_
          · exact ⟨h.inner, hgot⟩
          · exact hmid.of_eq rfl rfl
        | none =>
          simp only
          cases index.compressedOffset i with
          | none => exact ⟨h.inner, hgot⟩
          | some offset =>
            simp only
            refine (CacheKept.seekStart ?_ _).bind fun _ front hfront => ?_
            · exact ⟨h.inner, hgot⟩
            rw [bind_ok (modify_apply _ _)]
            refine (CacheKept.fillReadahead hc ?_).bind fun _ mid hmid => ?_
            · exact hfront.of_eq rfl rfl
            rw [bind_ok (get_apply _)]
            cases mid.readahead with
            | nil => exact hmid.of_eq rfl rfl
            | cons buf rest => exact hmid.of_eq rfl rfl

theorem CacheKept.serveNext (h : CacheKept file H r) (n : Nat) :
    Stays (CacheKept file H) (PgzfReader.serveNext n r) := by
  cases hqueue : r.readahead with
  | nil =>
    rw [serveNext_nil hqueue]
    exact h
  | cons next rest =>
    rw [serveNext_cons hqueue]
    exact h.of_eq rfl rfl

theorem CacheKept.advanceSequentialLoop (h : CacheKept file H r) (fuel : Nat) :
    Stays (CacheKept file H) (PgzfReader.advanceSequentialLoop fuel r) := by
  induction fuel generalizing r with
  | zero => exact h
  | succ fuel ih =>
    obtain ⟨p, hin⟩ := h.inner
    have hblock : Stays (CacheKept file H) (onInner (readPgzfBlock D) r) := by
      refine Post.onPart (by rw [hin]; exact readPgzfBlock_post D file p) ?_ ?_
      · intro found s hs
        obtain ⟨q, rfl, -⟩ := hs
        exact ⟨⟨q, rfl⟩, h.cache⟩
      · intro fault s hs
        obtain ⟨-, q, rfl⟩ := hs
        exact ⟨⟨q, rfl⟩, h.cache⟩
    rw [PgzfReader.advanceSequentialLoop]
    refine (Prog.post_intoIo_state hblock).bind fun found mid hmid => ?_
    cases found with
    | none => exact hmid.of_eq rfl rfl
    | some found =>
      obtain ⟨data, blockType, zc⟩ := found
      exact Post.ite (fun _ => ih hmid) fun _ => Post.ite (fun _ => hmid.of_eq rfl rfl) fun _ =>
        hmid.of_eq rfl rfl

theorem CacheKept.readNextBlock (hc : CacheClosed D file H) (h : CacheKept file H r) (n : Nat) :
    Stays (CacheKept file H) (PgzfReader.readNextBlock n r) := by
  rw [PgzfReader.readNextBlock, bind_ok (get_apply _)]
  refine Post.ite (fun _ => (h.serveNext n).bind fun found mid hmid => ?_) fun _ => ?_
  · cases found with
    | some out => exact hmid
    | none =>
      refine (hmid.fillReadahead hc).bind fun _ filled hfilled =>
        (hfilled.serveNext n).bind fun found last hlast => ?_
      cases found with
      | some out => exact hlast
      | none => exact hlast.of_eq rfl rfl
  · rw [advanceToNextBlockSequential]
    refine Post.bind (Q := fun _ r' => CacheKept file H r') ?_ fun _ mid hmid => ?_
    · rw [bind_ok (get_apply _)]
      exact h.advanceSequentialLoop _
    · rw [bind_ok (get_apply _)]
      exact Post.ite (fun _ => hmid) fun _ => hmid.of_eq rfl rfl

theorem CacheKept.read (hc : CacheClosed D file H) (h : CacheKept file H r) (n : Nat) :
    Stays (CacheKept file H) (PgzfReader.read n r) := by
  rw [PgzfReader.read]
  refine Post.ite (fun _ => h) fun _ => (h.executePendingSeek hc).bind fun _ mid hmid => ?_
  rw [bind_ok (get_apply _)]
  exact Post.ite (fun _ => hmid.of_eq rfl rfl) fun _ => Post.ite (fun _ => hmid) fun _ =>
    hmid.readNextBlock hc n

/-! ### Sessions -/

theorem callInvariant_cacheKept (hc : CacheClosed D file H) :
    CallInvariant (CacheKept file H) (DataMemberAt file) where
  toWalkInvariant := walkInvariant_cacheKept file H
  cleared _ _ _ h := h.of_eq rfl rfl
  read n h := h.read hc n

theorem CacheKept.call (hc : CacheClosed D file H) (h : CacheKept file H r) (call : BlockCall) :
    Stays (CacheKept file H) (call.run r) :=
  (callInvariant_cacheKept hc).call h call

/-- A step of a session that leaves the cache it has: a change of the other settings, or a call,
whichever way it ends. -/
inductive UseStep : PgzfReader D → PgzfReader D → Prop
  | withReadahead (r : PgzfReader D) (size : Nat) : UseStep r (r.withReadahead size)
  | withReadaheadMemoryLimit (r : PgzfReader D) (maxBytes : Nat) :
    UseStep r (r.withReadaheadMemoryLimit maxBytes)
  | returns {r r' : PgzfReader D} (call : BlockCall) : call.run r = .ok () r' → UseStep r r'
  | fails {r r' : PgzfReader D} (call : BlockCall) (fault : Fault) : call.run r = .error fault r' →
    UseStep r r'

theorem CacheKept.step (hc : CacheClosed D file H) (h : CacheKept file H r) (hstep : UseStep r r') :
    CacheKept file H r' := by
  cases hstep with
  | withReadahead size => exact h.of_eq rfl rfl
  | withReadaheadMemoryLimit maxBytes => exact h.of_eq rfl rfl
  | returns call hrun =>
    have hpost := h.call hc call
    rw [hrun] at hpost
    exact hpost
  | fails call fault hrun =>
    have hpost := h.call hc call
    rw [hrun] at hpost
    exact hpost

theorem CacheKept.steps (hc : CacheClosed D file H) (h : CacheKept file H r)
    (hsteps : Relation.ReflTransGen UseStep r r') :
    CacheKept file H r' := by
  induction hsteps with
  | refl => exact h
  | tail _ hstep ih => exact ih.step hc hstep

theorem post_new (D : Deps) (file : Bytes) (q : Nat) :
    Post (fun reader _ => ∃ p, reader.inner = ⟨file, p, []⟩) (fun _ s => Source.Over file s)
      (new D ⟨file, q, []⟩) := by
  rw [new, bind_ok (Source.seekStart_apply _ _ _)]
  have hfront : Source.Over file ⟨file, 0, []⟩ := ⟨rfl, rfl⟩
  refine ((keeps_readExact file _).post hfront).bind fun header s hs =>
    ((keeps_ofExcept _ _).post hs).bind ?_
  rintro ⟨flg, xfl⟩ s hs
  refine Post.ite (fun _ => ?_) fun _ => ?_
  · refine ((keeps_seekStart file 0).post hs).bind fun _ s hs =>
      ((keeps_build file).post hs).bind ?_
    rintro index ⟨bytes, p, faults⟩ ⟨rfl, rfl⟩
    exact ⟨0, rfl⟩
  · obtain ⟨bytes, p, faults⟩ := s
    obtain ⟨rfl, rfl⟩ := hs
    exact ⟨0, rfl⟩

theorem Reachable.inner {q : Nat} (h : Reachable ⟨file, q, []⟩ r) :
    ∃ p, r.inner = ⟨file, p, []⟩ := by
  have hc : CacheClosed D file fun _ => True := ⟨fun _ _ _ => trivial, fun _ _ _ _ _ => trivial⟩
  obtain ⟨reader, s', hnew, hsteps⟩ := h
  have hpost := post_new D file q
  rw [hnew] at hpost
  have hfresh : CacheKept file (fun _ => True) reader := ⟨hpost, trivial⟩
  have hkept : CacheKept file (fun _ => True) r := by
    induction hsteps with
    | refl => exact hfresh
    | @tail mid last _ hstep ih =>
      cases hstep with
      | setting hsetting => cases hsetting <;> exact ⟨ih.inner, trivial⟩
      | call call hcall =>
        have hpost :=
          Prog.post_attempt (S := fun _ r' => CacheKept file (fun _ => True) r') (ih.call hc call)
            (fun _ _ h' => h') fun _ _ h' => h'
        rw [hcall] at hpost
        exact hpost
  exact hkept.inner

/-! ### The limit -/

section Limit

open Recency BlockCursor PgzfWriter

variable {index : PgzfIndex} {blocks : List Bytes} {capacity m : Nat}

/-- What lookups, and insertions of blocks of the file, make of a new cache. -/
def FilledFrom (D : Deps) (file : Bytes) (capacity m : Nat) (cache : BlockCache D) : Prop :=
  ∃ calls, cache = (runCacheCalls calls ([], BlockCache.limited D capacity (some m))).2 ∧
    ∀ k data, CacheCall.insert k data ∈ calls → BlockOf D file data

theorem runCacheCalls_concat (calls : List CacheCall) (call : CacheCall)
    (state : CacheHistory × BlockCache D) :
    (runCacheCalls (calls ++ [call]) state).2 = (call.run (runCacheCalls calls state).2).2 := by
  rw [runCacheCalls_append]
  rfl

theorem filledFrom_closed (D : Deps) (file : Bytes) (capacity m : Nat) :
    CacheClosed D file (FilledFrom D file capacity m) := by
  constructor
  · rintro _ i ⟨calls, rfl, hcalls⟩
    refine ⟨calls ++ [CacheCall.get i], (runCacheCalls_concat calls (.get i) _).symm,
      fun k data hmem => hcalls k data ?_⟩
    exact (List.mem_append.mp hmem).resolve_right (by simp)
  · rintro _ i data ⟨calls, rfl, hcalls⟩ hdata
    refine ⟨calls ++ [CacheCall.insert i data],
      (runCacheCalls_concat calls (.insert i data) _).symm, fun k data' hmem => ?_⟩
    rcases List.mem_append.mp hmem with hmem | hmem
    · exact hcalls k data' hmem
    · obtain ⟨-, rfl⟩ := CacheCall.insert.inj (List.mem_singleton.mp hmem)
      exact hdata

theorem FilledFrom.usage_le {cache : BlockCache D} (h : FilledFrom D file capacity m cache)
    (hblocks : capacity = 0 ∨ ∀ data, BlockOf D file data → data.length ≤ m) :
    cache.memoryUsage ≤ m := by
  obtain ⟨calls, rfl, hcalls⟩ := h
  apply (recent_limited D capacity (some m)).run_le (Nat.zero_le _)
  exact hblocks.imp_right fun hall k data hmem => hall data (hcalls k data hmem)

theorem session_usage_le {q : Nat} {r₀ : PgzfReader D} (hreach : Reachable ⟨file, q, []⟩ r₀)
    (hsteps : Relation.ReflTransGen UseStep (r₀.withBlockCacheMemoryLimit capacity m) r)
    (hblocks : capacity = 0 ∨ ∀ data, BlockOf D file data → data.length ≤ m) :
    r.blockCache.memoryUsage ≤ m := by
  have hfresh : CacheKept file (FilledFrom D file capacity m)
      (r₀.withBlockCacheMemoryLimit capacity m) :=
    ⟨hreach.inner, [], rfl, fun k data hmem => absurd hmem List.not_mem_nil⟩
  exact (hfresh.steps (filledFrom_closed D file capacity m) hsteps).cache.usage_le hblocks

theorem BlockCache.lookup_limited (D : Deps) (capacity : Nat) (limit : Option Nat) (i : Nat) :
    (BlockCache.limited D capacity limit).lookup i = none := by
  have hcontents := (recent_limited D capacity limit).contents
  by_cases hzero : capacity = 0
  · exact BlockCache.lookup_of_capacity_zero (hcontents.capacity_eq.trans hzero) i
  · rw [BlockCache.lookup, (hcontents.get (Nat.pos_of_ne_zero hzero) i).1]
    rfl

/-- A block that is fetched alone into an empty cache takes at least its own length. -/
theorem le_memoryUsage_refillCache (hcapacity : capacity ≠ 0) {i : Nat} (hi : i < blocks.length) :
    blocks[i].length ≤
      (refillCache blocks ((BlockCache.limited D capacity (some m)).get i).2 i
        (i + 1)).memoryUsage := by
  have hpos := Nat.pos_of_ne_zero hcapacity
  obtain ⟨entries, hlooked⟩ := (recent_limited D capacity (some m)).run [.get i, .get i, .get i]
  obtain ⟨others, husage, -⟩ := hlooked.memoryUsage_insert hpos i blocks[i]
  have hempty : ((BlockCache.limited D capacity (some m)).get i).2.lookup i = none :=
    (BlockCache.lookup_get _ i i).trans (BlockCache.lookup_limited D capacity (some m) i)
  have hmissing : missing ((BlockCache.limited D capacity (some m)).get i).2 i (i + 1) = [i] := by
    rw [missing, Nat.add_sub_cancel_left, List.range'_one,
      List.filter_cons_of_pos (by rw [hempty]; rfl)]
    rfl
  have hfilled : refillCache blocks ((BlockCache.limited D capacity (some m)).get i).2 i (i + 1) =
      (runCacheCalls [.get i, .get i, .get i] ([], BlockCache.limited D capacity (some m))).2.insert
          i blocks[i] := by
    rw [refillCache, hmissing, Nat.add_sub_cancel_left, List.range'_one, insertAll, List.foldl_cons,
      List.foldl_nil, List.getD_eq_getElem?_getD, List.getElem?_eq_getElem hi]
    rfl
  rw [hfilled, husage]
  exact Nat.le_add_right _ _

theorem seekByte_block (hd : Describes D file index blocks) {i : Nat} (hi : i < blocks.length)
    (hpos : 0 < blocks[i].length) :
    ∃ skip, index.seekByte D (offset blocks i) = .ok (i, skip) ∧ skip < blocks[i].length := by
  obtain ⟨j, skip, hseek, hj, htarget, hinside, -⟩ :=
    seekByte_describes hd (offset_le_length blocks i)
  have hsame : j = i := by
    rcases Nat.lt_trichotomy j i with hlt | heq | hgt
    · have hmono := offset_mono blocks hlt
      rw [Nat.succ_eq_add_one, offset_succ (Nat.lt_trans hlt hi)] at hmono
      have := hinside (Nat.lt_trans hlt hi)
      omega
    · exact heq
    · have hmono := offset_mono blocks hgt
      rw [Nat.succ_eq_add_one, offset_succ hi] at hmono
      omega
  subst hsame
  exact ⟨skip, hseek, hinside hi⟩

/-- One block at a time, a block that is not cached is fetched alone. -/
theorem OnFile.fetches (hd : Describes D file index blocks) (h : OnFile file index blocks r)
    (hcount : blocks.length < 2 ^ 63) (hsize : r.readaheadSize = 1)
    (hroom : ∀ limit, r.readaheadMemoryLimit = some limit → r.blockCache.memoryUsage < limit)
    {i : Nat} (hi : i < blocks.length) (hpos : 0 < blocks[i].length)
    (hlookup : r.blockCache.lookup i = none) :
    ∃ r', Relation.ReflTransGen UseStep r r' ∧
      r'.blockCache = refillCache blocks (r.blockCache.get i).2 i (i + 1) := by
  have hnoted := h.noted (offset blocks i)
  obtain ⟨p, hin⟩ := hnoted.inner
  obtain ⟨skip, hseek, hskip⟩ := seekByte_block hd hi hpos
  obtain ⟨compressed, hoffset⟩ := hd.compressedOffset_isSome (Nat.le_of_lt hi)
  have hmoved := hnoted.movedTo compressed i
  have hneeds : NeedsRefill index ((r.noted (offset blocks i)).movedTo ⟨file, compressed,
      []⟩ i) := by
    refine ⟨rfl, fun limit hlimit => ?_, hd.blockCount ▸ hi⟩
    exact Nat.lt_of_le_of_lt (Nat.le_of_eq (BlockCache.memoryUsage_get _ i)) (hroom limit hlimit)
  have hfit : i + r.readaheadSize < 2 ^ 64 := by omega
  obtain ⟨q, hserve⟩ := hmoved.serveTarget_refill hd hneeds hfit hi skip
  have hmiss :=
    executePendingSeek_miss rfl hnoted.index_eq hseek hlookup hoffset (seekStart_inner hin _)
  obtain ⟨next, hnext, hcache, hleft, hidle⟩ : ∃ next,
    PgzfReader.executePendingSeek (r.noted (offset blocks i)) = .ok () next ∧
      next.blockCache = refillCache blocks (r.blockCache.get i).2 i (i + 1) ∧
        next.currentPos < next.currentBlock.length ∧ next.pendingSeek = none := by
    refine ⟨_, hmiss.trans hserve, ?_, hskip, rfl⟩
    have hstop : batchStop blocks ((r.noted (offset blocks i)).movedTo ⟨file, compressed, []⟩ i) i =
        i + 1 := by
      rw [batchStop]
      exact (congrArg (fun size => min blocks.length (i + size)) hsize).trans (Nat.min_eq_right hi)
    exact congrArg (refillCache blocks (r.blockCache.get i).2 i) hstop
  have hread := (read_of_executePendingSeek hnext hidle Nat.one_ne_zero).trans
    (read_left hidle hleft Nat.one_pos)
  refine ⟨_, .tail (.tail .refl ?_) (.returns (.read 1) (bind_ok hread)), hcache⟩
  exact .returns (.seekToByte (offset blocks i)) (seekToByte_noted h.isPgzf _)

/-- On a file that its index describes, a block above the limit is fetched and exceeds it. -/
theorem OnFile.exceeds (hd : Describes D file index blocks) (h : OnFile file index blocks r)
    (hcount : blocks.length < 2 ^ 63) (hcapacity : capacity ≠ 0) {data : Bytes}
    (hdata : data ∈ blocks) (hlong : m < data.length) :
    ∃ r', Relation.ReflTransGen UseStep (r.withBlockCacheMemoryLimit capacity m) r' ∧
      m < r'.blockCache.memoryUsage := by
  obtain ⟨i, hi, rfl⟩ := List.getElem_of_mem hdata
  have hset : OnFile file index blocks
      (((r.withBlockCacheMemoryLimit capacity m).withReadahead 1).withReadaheadMemoryLimit 1) :=
    ((h.setting (.withBlockCacheMemoryLimit _ capacity m)).setting
      (.withReadahead (by decide))).setting (.withReadaheadMemoryLimit _ 1)
  have hempty := BlockCache.lookup_limited D capacity (some m) i
  have hroom : ∀ limit, some 1 = some limit → (BlockCache.limited D capacity (some m)).memoryUsage <
      limit := by
    intro limit hlimit
    obtain rfl := Option.some.inj hlimit
    exact Nat.one_pos
  obtain ⟨r', hsteps, hcache⟩ :=
    hset.fetches hd hcount rfl hroom hi (Nat.lt_of_le_of_lt (Nat.zero_le _) hlong) hempty
  refine ⟨r', .head (.withReadahead _ 1) (.head (.withReadaheadMemoryLimit _ 1) hsteps), ?_⟩
  rw [hcache]
  exact Nat.lt_of_lt_of_le hlong (le_memoryUsage_refillCache hcapacity hi)

theorem length_decompressBlock_le {compressed out : Bytes} {n : Nat}
    (h : decompressBlock D compressed n = .ok out) :
    out.length ≤ n := by
  rw [decompressBlock] at h
  split at h
  · exact absurd h (by simp)
  · rename_i status found hfound
    obtain rfl := Except.ok.inj h
    exact D.decompress_le _ _ _ _ hfound

/-- The limit is respected after every call exactly when the cache stores nothing or no call stores
a block above the limit; a reader never exceeds it where no block of its file does, and with such a
block in a written file some session does. -/
theorem memory_limit (D : Deps) :
    (∀ (capacity m : Nat) (calls : List CacheCall),
      (∀ n, (runCacheCalls (calls.take n) ([],
        BlockCache.limited D capacity (some m))).2.memoryUsage ≤ m) ↔
        capacity = 0 ∨ ∀ k data, CacheCall.insert k data ∈ calls → data.length ≤ m) ∧
      (∀ (file : Bytes) (q capacity m : Nat) (r₀ r : PgzfReader D), Reachable ⟨file, q, []⟩ r₀ →
        (capacity = 0 ∨ ∀ data, BlockOf D file data → data.length ≤ m) →
          Relation.ReflTransGen UseStep (r₀.withBlockCacheMemoryLimit capacity m) r →
            r.blockCache.memoryUsage ≤ m) ∧
        ∀ (config : PgzfConfig) (calls : List WriteCall) (file : Bytes) (q capacity m : Nat)
          (r₀ : PgzfReader D),
          Written D config calls file → Reachable ⟨file, q, []⟩ r₀ → capacity ≠ 0 →
            (∃ data ∈ config.blocksOf (calls.flatMap WriteCall.bytes), m < data.length) →
              ∃ r, Relation.ReflTransGen UseStep (r₀.withBlockCacheMemoryLimit capacity m) r ∧
                m < r.blockCache.memoryUsage := by
  refine ⟨limit_respected_iff D, ?_, ?_⟩
  · intro file q capacity m r₀ r hreach hblocks hsteps
    exact session_usage_le hreach hsteps hblocks
  · intro config calls file q capacity m r₀ hw hreach hcapacity hlarge
    obtain ⟨data, hdata, hlong⟩ := hlarge
    obtain ⟨index, raws, hl, hon, hcount⟩ := hreach.written hw
    exact hon.exceeds hl.described hcount hcapacity hdata hlong

theorem Stored.length_le_of_blockOf {data : Bytes} (h : BlockOf deps sampleFile data) :
    data.length ≤ 2 := by
  obtain ⟨raw, headerSize, ⟨p, ty, hat, -⟩, hdata⟩ := h
  have hall : ∀ p < sampleFile.length, ((memberAt sampleFile p).toOption.join.bind fun found =>
      (decompressRawBlockWith deps found.1 found.2.1).toOption).all fun data =>
          data.length ≤ 2 := by
    decide +kernel
  have hp := length_of_memberAt hat
  have hsmall := hall p (by omega)
  simpa only [hat, Except.toOption, Option.join_some, Option.bind_some, hdata, Option.all_some,
    decide_eq_true_eq] using hsmall

theorem memory_limit_sample :
    (∀ n, (runCacheCalls ([.insert 0 [1, 2], .insert 1 [3], .get 0].take n)
        ([], BlockCache.limited Stored.deps 4 (some 2))).2.memoryUsage ≤ 2) ∧
      (∀ r, Relation.ReflTransGen UseStep
        ((fresh Stored.deps Stored.sampleFile Stored.sampleIndex).withBlockCacheMemoryLimit 64 2)
          r →
          r.blockCache.memoryUsage ≤ 2) ∧
        ∃ r, Relation.ReflTransGen UseStep
          ((fresh Stored.deps Stored.sampleFile Stored.sampleIndex).withBlockCacheMemoryLimit 64 1)
            r ∧
            1 < r.blockCache.memoryUsage := by
  obtain ⟨hcalls, hsession, hexceeds⟩ := memory_limit Stored.deps
  refine ⟨(hcalls 4 2 _).mpr (.inr ?_), fun r hsteps => ?_, ?_⟩
  · intro k data hmem
    have hcases : k = 0 ∧ data = [1, 2] ∨ k = 1 ∧ data = [3] := by simpa using hmem
    rcases hcases with ⟨-, rfl⟩ | ⟨-, rfl⟩ <;> decide
  · exact hsession _ 0 64 _ _ r Stored.reachable_sample (.inr fun _ =>
      Stored.length_le_of_blockOf) hsteps
  · exact hexceeds _ _ _ 0 64 1 _ Stored.written_sample Stored.reachable_sample (by decide)
      ⟨[97, 98], by decide, by decide⟩

/-- A cache of one byte stores a block of two, and so does a reader of such blocks. -/
theorem limit_exceeded :
    (runCacheCalls [.insert 0 [1, 2]] ([],
      BlockCache.limited Stored.deps 1 (some 1))).2.memoryUsage = 2 ∧
      Reachable ⟨Stored.sampleFile,
        0, []⟩ (fresh Stored.deps Stored.sampleFile Stored.sampleIndex) ∧
      ∃ r, Relation.ReflTransGen UseStep
        ((fresh Stored.deps Stored.sampleFile Stored.sampleIndex).withBlockCacheMemoryLimit 64 1)
          r ∧
          1 < r.blockCache.memoryUsage := by
  refine ⟨rfl, Stored.reachable_sample, ?_⟩
  obtain ⟨index, raws, hl, hon, hcount⟩ := Stored.reachable_sample.written Stored.written_sample
  exact hon.exceeds hl.described hcount (by decide) (show [97, 98] ∈ _ by decide) (by decide)

end Limit

end Pgzf
