import Mathlib.Logic.Relation
import Pgzf.Damage
import Pgzf.RandomAccess
import Pgzf.SideBySide

/-!
# Reads that fail

A read that fails in front of the first data member of its refill leaves the reader where it stood,
and the next read that succeeds answers as if nothing had happened. Where it fails later, the reader
has counted members it does not serve, or has given up the target of a seek.
-/

namespace Pgzf

open PgzfReader PgzfIndex Program

variable {D : Deps}

/-! ### Sources -/

structure Source.Later (s s' : Source) : Prop where
  bytes_eq : s'.bytes = s.bytes
  faults_suffix : s'.faults <:+ s.faults

theorem Source.Later.refl (s : Source) : s.Later s := ⟨rfl, List.suffix_refl _⟩

theorem Source.Later.trans {s₁ s₂ s₃ : Source} (h : s₁.Later s₂) (h' : s₂.Later s₃) : s₁.Later s₃ :=
  ⟨h'.bytes_eq.trans h.bytes_eq, h'.faults_suffix.trans h.faults_suffix⟩

theorem tick_later (s : Source) :
    Post (fun _ s' => s.Later s') (fun _ s' => s.Later s') (Source.tick s) := by
  obtain ⟨bytes, p, faults⟩ := s
  cases faults with
  | nil => exact .refl _
  | cons fault rest =>
    cases fault with
    | none => exact ⟨rfl, List.suffix_cons _ _⟩
    | some e => exact ⟨rfl, List.suffix_cons _ _⟩

theorem seekStart_later (s : Source) (offset : Nat) :
    Post (fun _ s' => s.Later s') (fun _ s' => s.Later s') (Source.seekStart offset s) := by
  apply (tick_later s).bind
  rintro - s' h
  exact ⟨h.bytes_eq, h.faults_suffix⟩

theorem readExact_later (s : Source) (n : Nat) :
    Post (fun _ s' => s.Later s') (fun _ s' => s.Later s') (Source.readExact n s) := by
  apply (tick_later s).bind
  rintro - s' h
  rw [bind_ok (get_apply _)]
  exact Post.ite (fun _ => ⟨h.bytes_eq, h.faults_suffix⟩) fun _ => ⟨h.bytes_eq, h.faults_suffix⟩

/-- The header of a member: the length of its extra field, and the tags. -/
def Source.readHeader : Prog Source (Nat × RawTags) := do
  let _ ← Source.readExact gzipFixedHeaderSize
  let xlenBuf ← Source.readExact 2
  let xlen := (readU16Le xlenBuf).toNat
  let extra ← Source.readExact xlen
  return (xlen, rawTags extra)

theorem readHeader_later (s : Source) :
    Post (fun _ s' => s.Later s') (fun _ s' => s.Later s') (Source.readHeader s) := by
  rw [Source.readHeader]
  apply (readExact_later s _).bind
  rintro - s₁ h₁
  apply ((readExact_later s₁ 2).mono (fun _ _ h => h₁.trans h) fun _ _ h => h₁.trans h).bind
  rintro xlenBuf s₂ h₂
  apply ((readExact_later s₂ _).mono (fun _ _ h => h₂.trans h) fun _ _ h => h₂.trans h).bind
  rintro extra s₃ h₃
  exact h₃

/-- Reading members one after another, the source comes to the header of a data member. -/
inductive ReachesData : Source → Prop
  | data {s s' : Source} {xlen : Nat} {tags : RawTags} : s.readHeader = .ok (xlen, tags) s' →
    tags.blockType ≠ .idx →
      ReachesData s
  | idx {s s' s'' : Source} {xlen : Nat} {tags : RawTags} {rest : Bytes} : s.readHeader = .ok (xlen,
    tags) s' →
      tags.blockType = .idx → gzipFixedHeaderSize + 2 + xlen ≤ tags.zc.toNat →
        tags.zc.toNat ≤ 2 ^ 30 →
        Source.readExact (tags.zc.toNat - (gzipFixedHeaderSize + 2 + xlen)) s' = .ok rest s'' →
          ReachesData s'' → ReachesData s

/-! ### What is kept -/

def Advanced (r r' : PgzfReader D) : Prop := ∃ s, r.inner.Later s ∧ r' = { r with inner := s }

/-- The reader, with its source used and blocks looked up in its cache. -/
def Kept (r r' : PgzfReader D) : Prop :=
  ∃ batch s, r.inner.Later s ∧
    r' = { r with inner := s, blockCache := (cacheLookups batch r.blockCache).2 }

theorem cacheLookups_append (batch others : List Nat) (cache : BlockCache D) :
    (cacheLookups (batch ++ others) cache).2 =
      (cacheLookups others (cacheLookups batch cache).2).2 := by
  induction batch generalizing cache with
  | nil => rfl
  | cons i rest ih => exact ih _

theorem memoryUsage_cacheLookups (batch : List Nat) (cache : BlockCache D) :
    (cacheLookups batch cache).2.memoryUsage = cache.memoryUsage := by
  induction batch generalizing cache with
  | nil => rfl
  | cons i rest ih => exact (ih _).trans (BlockCache.memoryUsage_get cache i)

theorem Kept.refl (r : PgzfReader D) : Kept r r := ⟨[], r.inner, .refl _, rfl⟩

theorem Kept.trans {r₁ r₂ r₃ : PgzfReader D} (h : Kept r₁ r₂) (h' : Kept r₂ r₃) : Kept r₁ r₃ := by
  obtain ⟨batch, s, hs, rfl⟩ := h
  obtain ⟨others, s', hs', rfl⟩ := h'
  refine ⟨batch ++ others, s', hs.trans hs', ?_⟩
  rw [cacheLookups_append]

theorem onInner_advanced (r : PgzfReader D) {α : Type} {m : Prog Source α}
    (hm : ∀ s, Post (fun _ s' => s.Later s') (fun _ s' => s.Later s') (m s)) :
    Post (fun a r' => m r.inner = .ok a r'.inner ∧ Advanced r r') (fun _ r' => Advanced r r')
      (onInner m r) := by
  have hpost := hm r.inner
  cases hrun : m r.inner with
  | ok a s =>
    rw [hrun] at hpost
    rw [onInner, onPart_ok hrun]
    exact ⟨rfl, s, hpost, rfl⟩
  | error fault s =>
    rw [hrun] at hpost
    rw [onInner, onPart_error hrun]
    exact ⟨s, hpost, rfl⟩

/-! ### The header of a raw block -/

def PgzfReader.counted (r : PgzfReader D) (s : Source) (count : Nat) : PgzfReader D :=
  { r with inner := s, nextBlockIndex := r.nextBlockIndex + count }

def PgzfReader.RawTags.count (tags : RawTags) : Nat := if tags.blockType = .idx then 0 else 1

/-- Where the header cannot be read, nothing is counted. -/
theorem readOneRawBlock_of_header_error {r : PgzfReader D} {fault : Fault} {s : Source}
    (h : Source.readHeader r.inner = .error fault s) :
    Post (fun found r' => found = none ∧ r' = r.counted s 0) (fun _ r' => r' = r.counted s 0)
      (readOneRawBlock r) := by
  rw [Source.readHeader] at h
  rw [readOneRawBlock]
  cases hfirst : Source.readExact gzipFixedHeaderSize r.inner with
  | error fault' s' =>
    rw [bind_error hfirst] at h
    obtain ⟨rfl, rfl⟩ := EStateM.Result.error.inj h
    have hrun := onInner_error hfirst
    cases fault' with
    | error e =>
      rw [bind_ok (Prog.attempt_error hrun)]
      cases e with
      | io e => exact Post.ite (fun _ => ⟨rfl, rfl⟩) fun _ => rfl
      | _ => exact rfl
    | _ =>
      rw [bind_error
        (show Prog.attempt _ r = .error _ { r with inner := s' } by rw [Prog.attempt, hrun])]
      exact rfl
  | ok headerBuf s₁ =>
    rw [bind_ok hfirst] at h
    rw [bind_ok (Prog.attempt_ok (onInner_ok hfirst))]
    simp only
    cases hsecond : Source.readExact 2 s₁ with
    | error fault' s' =>
      rw [bind_error hsecond] at h
      obtain ⟨rfl, rfl⟩ := EStateM.Result.error.inj h
      rw [bind_error (onInner_error (by exact hsecond))]
      exact rfl
    | ok xlenBuf s₂ =>
      rw [bind_ok hsecond] at h
      rw [bind_ok (onInner_ok (by exact hsecond))]
      cases hthird : Source.readExact (readU16Le xlenBuf).toNat s₂ with
      | error fault' s' =>
        rw [bind_error hthird] at h
        obtain ⟨rfl, rfl⟩ := EStateM.Result.error.inj h
        rw [bind_error (onInner_error (by exact hthird))]
        exact rfl
      | ok extra s₃ =>
        rw [bind_ok hthird] at h
        exact absurd h (by simp)

/-- Behind the header of a member: it is counted, and read where its size allows that. -/
theorem readOneRawBlock_of_header_ok {r : PgzfReader D} {xlen : Nat} {tags : RawTags} {s : Source}
    (h : Source.readHeader r.inner = .ok (xlen, tags) s) :
    ∃ front, readOneRawBlock r = (do
      if tags.zc = 0 then
        return none
      else if tags.zc.toNat > 2 ^ 30 then
        throw
          (.error (.invalidFormat ("block size too large: " ++ toString tags.zc.toNat ++ " bytes")))
      else if tags.zc.toNat < gzipFixedHeaderSize + 2 + xlen then
        throw (.panic "range end index out of range for slice")
      else
        let rest ← onInner (Source.readExact (tags.zc.toNat - (gzipFixedHeaderSize + 2 + xlen)))
        return some ⟨front ++ rest, gzipFixedHeaderSize + 2 + xlen, tags.blockType,
          r.nextBlockIndex⟩ :
          Prog (PgzfReader D) (Option RawBlock)) (r.counted s tags.count) := by
  rw [Source.readHeader] at h
  obtain ⟨headerBuf, s₁, hfirst, h⟩ := of_bind_ok h
  obtain ⟨xlenBuf, s₂, hsecond, h⟩ := of_bind_ok h
  obtain ⟨extra, s₃, hthird, h⟩ := of_bind_ok h
  obtain ⟨hsame, rfl⟩ := EStateM.Result.ok.inj h
  obtain ⟨rfl, rfl⟩ := Prod.mk.inj hsame
  refine ⟨headerBuf ++ xlenBuf ++ extra, ?_⟩
  rw [readOneRawBlock, bind_ok (Prog.attempt_ok (onInner_ok hfirst))]
  simp only
  rw [bind_ok (onInner_ok (by exact hsecond)), bind_ok (onInner_ok (by exact hthird)),
    bind_ok (get_apply _)]
  by_cases hidx : (rawTags extra).blockType = .idx
  · simp only [hidx, ne_eq, not_true, if_false, RawTags.count, if_true]
    rfl
  · simp only [hidx, ne_eq, not_false_iff, if_true, RawTags.count, if_false]
    rw [bind_ok (modify_apply _ _)]
    rfl

/-! ### Batches without data -/

theorem readOneRawBlock_short {r : PgzfReader D} (hshort : ¬ ReachesData r.inner) :
    Post (fun found r' => Advanced r r' ∧ ∀ block, found = some block → block.blockType = .idx ∧
      ¬ ReachesData r'.inner)
      (fun _ r' => Advanced r r') (readOneRawBlock r) := by
  have hlater := readHeader_later r.inner
  have hnone : ∀ s, r.inner.Later s → Advanced r (r.counted s 0) ∧ ∀ block : RawBlock,
      none = some block →
      block.blockType = .idx ∧ ¬ ReachesData s :=
        fun s hs => ⟨⟨s, hs, rfl⟩, fun block hblock => absurd hblock (by simp)⟩
  cases hheader : r.inner.readHeader with
  | error fault s =>
    rw [hheader] at hlater
    refine (readOneRawBlock_of_header_error hheader).mono ?_ ?_
    · rintro found r' ⟨rfl, rfl⟩
      exact hnone s hlater
    · rintro fault' r' rfl
      exact ⟨s, hlater, rfl⟩
  | ok header s =>
    obtain ⟨xlen, tags⟩ := header
    rw [hheader] at hlater
    have hidx : tags.blockType = .idx := by
      by_contra hne
      exact hshort (.data hheader hne)
    have hcount : tags.count = 0 := if_pos hidx
    obtain ⟨front, hread⟩ := readOneRawBlock_of_header_ok hheader
    rw [hread, hcount]
    refine Post.ite (fun _ => hnone s hlater) fun _ => ?_
    refine Post.ite (fun _ => ⟨s, hlater, rfl⟩) fun hlarge => ?_
    refine Post.ite (fun _ => ⟨s, hlater, rfl⟩) fun hsmall => ?_
    refine ((onInner_advanced _ fun s => readExact_later s _).mono (fun _ _ h => h) ?_).bind ?_
    · rintro fault r' ⟨s', hs', rfl⟩
      exact ⟨s', hlater.trans hs', rfl⟩
    rintro rest r' ⟨hrest, s', hs', rfl⟩
    refine ⟨⟨s', hlater.trans hs', rfl⟩, ?_⟩
    intro block hblock
    obtain rfl := Option.some.inj hblock
    exact ⟨hidx, fun hdata => hshort
      (.idx hheader hidx (Nat.not_lt.mp hsmall) (Nat.not_lt.mp hlarge) hrest hdata)⟩

theorem readRange_short {r : PgzfReader D} (hshort : ¬ ReachesData r.inner) (fuel count : Nat)
    (allRaw : List (Nat × Bytes × Nat)) :
    Post (fun out r' => out = (allRaw, true) ∧ Advanced r r') (fun _ r' => Advanced r r')
      (readRange fuel (count + 1) allRaw r) := by
  induction fuel generalizing r with
  | zero => exact ⟨r.inner, .refl _, rfl⟩
  | succ fuel ih =>
    rw [readRange, if_neg (Nat.succ_ne_zero count)]
    apply (Prog.post_intoIo_state (readOneRawBlock_short hshort)).bind
    rintro found r' ⟨⟨s, hs, rfl⟩, hidx⟩
    cases found with
    | none => exact ⟨rfl, s, hs, rfl⟩
    | some block =>
      obtain ⟨htype, hshort'⟩ := hidx block rfl
      simp only [htype, if_true]
      refine (ih hshort').mono ?_ ?_
      · rintro out r' ⟨rfl, s', hs', rfl⟩
        exact ⟨rfl, s', hs.trans hs', rfl⟩
      · rintro fault r' ⟨s', hs', rfl⟩
        exact ⟨s', hs.trans hs', rfl⟩

/-! ### Refills -/

theorem groupContiguousLoop_head (rest : List Nat) {start prev : Nat} (h : start ≤ prev) :
    ∃ stop others, groupContiguousLoop rest start prev = (start, stop) :: others ∧
      start < stop := by
  induction rest generalizing prev with
  | nil => exact ⟨prev + 1, [], rfl, Nat.lt_succ_of_le h⟩
  | cons i rest ih =>
    rw [groupContiguousLoop]
    by_cases hnext : i = prev + 1
    · rw [if_pos hnext]
      exact ih (by omega)
    · rw [if_neg hnext]
      exact ⟨prev + 1, _, rfl, Nat.lt_succ_of_le h⟩

/-- The first range of a refill is read from where the reader stands, and the source fails or ends
in front of its first data member. -/
theorem readRanges_short {r : PgzfReader D} {first stop offset : Nat} (hlt : first < stop)
    (hshort : ∀ s, Source.seekStart offset r.inner = .ok () s → first = r.nextBlockIndex ∧
      ¬ ReachesData s)
    (rest : List ((Nat × Nat) × Nat)) :
    Post (fun out r' => out = ([], true) ∧ Advanced r r') (fun _ r' => Advanced r r')
      (readRanges (((first, stop), offset) :: rest) [] r) := by
  rw [readRanges]
  apply (Prog.post_intoIo_state (onInner_advanced r fun s => seekStart_later s offset)).bind
  rintro u r' ⟨hok, s, hs, rfl⟩
  obtain ⟨rfl, hreaches⟩ := hshort s hok
  rw [bind_ok (modify_apply _ _), bind_ok (get_apply _)]
  obtain ⟨count, hcount⟩ : ∃ count, stop - r.nextBlockIndex = count + 1 :=
    ⟨stop - r.nextBlockIndex - 1, by omega⟩
  rw [hcount]
  refine ((readRange_short (r := { r with inner := s }) hreaches _ count []).mono (fun _ _ h =>
    h) ?_).bind ?_
  · rintro fault r' ⟨s', hs', rfl⟩
    exact ⟨s', hs.trans hs', rfl⟩
  · rintro out r' ⟨rfl, s', hs', rfl⟩
    exact ⟨rfl, s', hs.trans hs', rfl⟩

/-- In front of this read nothing has moved when it fails: no seek is pending, and where the first
seek of the refill succeeds, the refill starts with the next block and the source does not come to
the header of a data member. -/
def StopsShort (r : PgzfReader D) : Prop :=
  r.pendingSeek = none ∧ ∀ index first, r.index = some index →
    (missing r.blockCache r.nextBlockIndex
      (min index.blockCount (r.nextBlockIndex + r.readaheadSize))).head? = some first →
      ∀ s, Source.seekStart ((index.compressedOffset first).getD 0) r.inner = .ok () s →
        first = r.nextBlockIndex ∧ ¬ ReachesData s

theorem fetchBatch_short {r : PgzfReader D} {index : PgzfIndex} {stop : Nat}
    (hshort : ∀ first, (missing r.blockCache r.nextBlockIndex stop).head? = some first →
      ∀ s, Source.seekStart ((index.compressedOffset first).getD 0) r.inner = .ok () s →
        first = r.nextBlockIndex ∧ ¬ ReachesData s) :
    Post (fun _ _ => True) (fun _ r' => Kept r r') (fetchBatch index r.nextBlockIndex stop r) := by
  have hcache := cacheLookups_append (List.range' r.nextBlockIndex (stop - r.nextBlockIndex))
    (List.range' r.nextBlockIndex (stop - r.nextBlockIndex)) r.blockCache
  -- phase 3 does not fail
  have hphase3 : ∀ (results : List (Option Bytes)) (hitEof : Bool) (r' : PgzfReader D),
      Post (fun _ _ => True) (fun _ r'' => Kept r r'') (assemble index stop results hitEof r') := by
    intro results hitEof r'
    rw [assemble, bind_ok (modify_apply _ _), bind_ok (get_apply _)]
    exact Post.ite (fun _ => trivial) fun _ => trivial
  rw [fetchBatch_apply]
  cases hcase : missing r.blockCache r.nextBlockIndex stop with
  | nil =>
    rw [if_pos rfl]
    exact hphase3 _ _ _
  | cons first rest =>
    obtain ⟨last, others, hranges, hlt⟩ := groupContiguousLoop_head rest (Nat.le_refl first)
    rw [if_neg (List.cons_ne_nil _ _), fetchMissing, groupContiguous, hranges, List.map_cons,
      lookedUp, ← hcache]
    rw [hcase] at hshort
    refine ((readRanges_short (r := { r with
      blockCache := (cacheLookups (List.range' r.nextBlockIndex (stop - r.nextBlockIndex) ++
        List.range' r.nextBlockIndex (stop - r.nextBlockIndex)) r.blockCache).2 }) hlt
          (hshort first rfl) _).mono (fun _ _ h => h) ?_).bind ?_
    · rintro fault r' ⟨s, hs, rfl⟩
      exact ⟨_, s, hs, rfl⟩
    rintro out r' ⟨rfl, s, hs, rfl⟩
    -- nothing has been read, and only the last seek can fail
    simp only
    rw [show decompressAll D [] = .ok [] from rfl, bind_ok (Prog.ofExcept_ok _ _), storeBlocks,
      bind_ok (pure_apply _ _)]
    refine ((Prog.post_intoIo_state (onInner_advanced _ fun s => seekStart_later s _)).mono
      (fun _ _ h => h) ?_).bind ?_
    · rintro fault r' ⟨s', hs', rfl⟩
      exact ⟨_, s', hs.trans hs', rfl⟩
    · rintro - r' -
      rw [bind_ok (modify_apply _ _)]
      exact hphase3 _ _ _

theorem fillReadahead_short {r : PgzfReader D} (hshort : StopsShort r) :
    Post (fun _ _ => True) (fun _ r' => Kept r r') (fillReadahead r) := by
  rw [fillReadahead, bind_ok (get_apply _)]
  refine Post.ite (fun _ => trivial) fun _ => ?_
  refine Post.ite (fun _ => trivial) fun _ => ?_
  refine Post.ite (fun _ => trivial) fun _ => ?_
  cases hindex : r.index with
  | none => exact trivial
  | some index =>
    simp only
    refine Post.ite (fun _ => trivial) fun _ => ?_
    refine Post.bind (Q := fun limit r' => limit = r.nextBlockIndex + r.readaheadSize ∧
      r' = r) ?_ ?_
    · exact Post.ite (fun _ => ⟨rfl, rfl⟩) fun _ => Kept.refl r
    · rintro limit r' ⟨rfl, rfl⟩
      exact fetchBatch_short fun first => hshort.2 index first hindex

theorem serveNext_unserved (n : Nat) (r : PgzfReader D) :
    Post (fun served r' => served = none → r' = r) (fun _ _ => False) (serveNext n r) := by
  cases hqueue : r.readahead with
  | nil =>
    rw [serveNext_nil hqueue]
    exact fun _ => rfl
  | cons next rest =>
    rw [serveNext_cons hqueue]
    exact fun h => absurd h (by simp)

/-- A read that fails, where it stops short, keeps everything
but the source and the order of use in the cache. -/
theorem read_short {r : PgzfReader D} (hpgzf : r.isPgzf = true) (hshort : StopsShort r) (n : Nat) :
    Post (fun _ _ => True) (fun _ r' => Kept r r') (PgzfReader.read n r) := by
  rw [PgzfReader.read]
  refine Post.ite (fun _ => trivial) fun _ => ?_
  rw [bind_ok (executePendingSeek_none hshort.1), bind_ok (get_apply _)]
  refine Post.ite (fun _ => trivial) fun _ => ?_
  refine Post.ite (fun _ => trivial) fun _ => ?_
  rw [readNextBlock, bind_ok (get_apply _)]
  refine Post.ite (fun _ => ?_) fun hplain => absurd hpgzf hplain
  apply ((serveNext_unserved n r).mono (fun _ _ h => h) fun _ _ h => h.elim).bind
  intro served r' hserved
  cases served with
  | some out => exact trivial
  | none =>
    obtain rfl := hserved rfl
    refine (fillReadahead_short hshort).bind fun _ r' _ => ?_
    refine ((serveNext_unserved n r').mono (fun _ _ h => h) fun _ _ h => h.elim).bind ?_
    intro served r'' _
    cases served with
    | some out => exact trivial
    | none => exact trivial

/-! ### After failed reads -/

/-- The logical position: the target of a pending seek, and otherwise what is left of the current
block ends where the index lists the first block of the queue. -/
def PgzfReader.position (r : PgzfReader D) : Nat :=
  r.pendingSeek.getD (((r.index.bind fun index =>
    index.uncompressedOffsets[r.nextBlockIndex - r.readahead.length]?).getD 0) -
      (r.currentBlock.length - r.currentPos))

def FailedRead (r r' : PgzfReader D) : Prop :=
  StopsShort r ∧ ∃ n e, PgzfReader.read n r = .error (.error e) r'

theorem FailedRead.kept {r r' : PgzfReader D} (hpgzf : r.isPgzf = true) (h : FailedRead r r') :
    Kept r r' := by
  obtain ⟨hshort, n, e, hread⟩ := h
  have hpost := read_short hpgzf hshort n
  rwa [hread] at hpost

theorem kept_of_failedReads {r r' : PgzfReader D} (hpgzf : r.isPgzf = true)
    (h : Relation.TransGen FailedRead r r') :
    Kept r r' := by
  induction h with
  | single hread => exact hread.kept hpgzf
  | tail _ hread ih =>
    have hmid := ih
    obtain ⟨batch, s, -, rfl⟩ := hmid
    exact ih.trans (hread.kept hpgzf)

theorem sourcePair_eq : SourcePair Eq fun _ => False where
  bytes_eq h := by rw [h]
  seekStart := by
    rintro s _ rfl offset
    refine .inr ?_
    cases Source.seekStart offset s with
    | ok a t => exact ⟨rfl, rfl⟩
    | error e t => exact ⟨rfl, rfl⟩
  readExact := by
    rintro s _ rfl n
    refine .inr ?_
    cases Source.readExact n s with
    | ok a t => exact ⟨rfl, rfl⟩
    | error e t => exact ⟨rfl, rfl⟩
  isIo h := h.elim

theorem cachePair_lookups : CachePair
    (fun c c' : BlockCache D => (∀ i, c'.lookup i = c.lookup i) ∧ c'.memoryUsage = c.memoryUsage)
      fun _ _ => True where
  lookup h := h.1
  memoryUsage h := h.2
  get {c c'} h i := ⟨fun j => by rw [BlockCache.lookup_get, BlockCache.lookup_get, h.1 j],
    by rw [BlockCache.memoryUsage_get, BlockCache.memoryUsage_get, h.2]⟩
  weaken _ := trivial
  insert _ _ _ := trivial

/-- Whatever the reader and its source: behind reads that have failed and stopped short, the next
one that succeeds answers as it would have in front of them. -/
theorem read_after_failed {r r' : PgzfReader D} (hpgzf : r.isPgzf = true)
    (hfailed : Relation.TransGen FailedRead r r') {n : Nat} {out : Bytes} {r'' : PgzfReader D}
    (hread : PgzfReader.read n r' = .ok out r'') :
    ∃ last, PgzfReader.read n { r with inner := r'.inner } = .ok out last ∧
      Alike Eq (fun _ _ => True) r'' last := by
  have hnone : r.pendingSeek = none := by
    obtain ⟨mid, hfirst, -⟩ := Relation.TransGen.head'_iff.mp hfailed
    exact hfirst.1.1
  obtain ⟨batch, s, -, rfl⟩ := kept_of_failedReads hpgzf hfailed
  have halike : Alike Eq (fun c c' => (∀ i, c'.lookup i = c.lookup i) ∧
      c'.memoryUsage = c.memoryUsage)
      { r with inner := s, blockCache := (cacheLookups batch r.blockCache).2 }
          { r with inner := s } :=
    .intro hpgzf rfl ⟨fun i => (BlockCache.lookup_cacheLookups batch _ i).symm,
      (memoryUsage_cacheLookups batch _).symm⟩
  have hends :=
    read_alike sourcePair_eq cachePair_lookups halike (fun hpending => absurd hnone hpending) n
  rw [hread] at hends
  obtain ⟨_, last, hlast, rfl, halike⟩ := hends.of_ok
  exact ⟨last, hlast, halike⟩

/-! ### Sessions on a source that fails now and then -/

def Source.calm (s : Source) : Source := ⟨s.bytes, s.pos, []⟩

def Source.Honest (s : Source) : Prop := ∀ e, some e ∈ s.faults → e.kind ≠ .unexpectedEof

def SourceFault (fault : Fault) : Prop :=
  ∃ e : IoError, fault = .error (.io e) ∧ e.kind ≠ .unexpectedEof

theorem Source.Honest.later {s s' : Source} (h : s.Honest) (hlater : s.Later s') : s'.Honest :=
  fun e he => h e (hlater.faults_suffix.subset he)

theorem tick_calm {s : Source} (hs : s.Honest) :
    EndsUnless SourceFault (fun s t => t = s.calm ∧ s.Honest) Eq (Source.tick s)
      (Source.tick s.calm) := by
  obtain ⟨bytes, p, faults⟩ := s
  cases faults with
  | nil => exact .inr ⟨rfl, rfl, hs⟩
  | cons fault rest =>
    cases fault with
    | none => exact .inr ⟨rfl, rfl, fun e he => hs e (List.mem_cons_of_mem _ he)⟩
    | some e => exact .inl ⟨_, _, rfl, e, rfl, hs e List.mem_cons_self⟩

theorem sourcePair_calm : SourcePair (fun s t => t = s.calm ∧ s.Honest) SourceFault where
  bytes_eq := by
    rintro s _ ⟨rfl, -⟩
    rfl
  seekStart := by
    rintro s _ ⟨rfl, hs⟩ offset
    apply (tick_calm hs).bind (fun _ _ h => h)
    rintro - - s _ - ⟨rfl, hs⟩
    exact .inr ⟨rfl, rfl, hs⟩
  readExact := by
    rintro s _ ⟨rfl, hs⟩ n
    apply (tick_calm hs).bind (fun _ _ h => h)
    rintro - - s _ - ⟨rfl, hs⟩
    rw [bind_ok (get_apply _), bind_ok (get_apply _)]
    exact EndsUnless.ite Iff.rfl (fun _ => .inr ⟨rfl, rfl, hs⟩) fun _ => .inr ⟨rfl, rfl, hs⟩
  isIo h := h

theorem cachePair_eq : CachePair (D := D) Eq Eq where
  lookup h i := by rw [h]
  memoryUsage h := by rw [h]
  get h i := by rw [h]
  weaken h := h
  insert h i data := by rw [h]

/-- The answers of a cursor whose reads may fail, and where it stands behind them: a read that fails
leaves it where it is. -/
inductive FailingCursorRun (payload : Bytes) :
    Nat → List ReaderCall → List (Except PgzfError (Option Bytes)) → Nat → Prop
  | nil (pos : Nat) : FailingCursorRun payload pos [] [] pos
  | seekToByte {pos offset last : Nat} {calls : List ReaderCall}
    {answers : List (Except PgzfError (Option Bytes))} :
    FailingCursorRun payload offset calls answers last →
      FailingCursorRun payload pos (.seekToByte offset :: calls) (.ok none :: answers) last
  | read {pos n last : Nat} {out : Bytes} {calls : List ReaderCall}
    {answers : List (Except PgzfError (Option Bytes))} :
    out = (payload.drop pos).take out.length → out.length ≤ n →
      (0 < n → out = [] → pos = payload.length) →
      FailingCursorRun payload (pos + out.length) calls answers last →
        FailingCursorRun payload pos (.read n :: calls) (.ok (some out) :: answers) last
  | failed {pos n last : Nat} {e : PgzfError} {calls : List ReaderCall}
      {answers : List (Except PgzfError (Option Bytes))} :
        FailingCursorRun payload pos calls answers last →
        FailingCursorRun payload pos (.read n :: calls) (.error e :: answers) last

section Session

variable {file : Bytes} {index : PgzfIndex} {blocks : List Bytes} {r : PgzfReader D} {pos : Nat}

structure Follows (file : Bytes) (index : PgzfIndex) (blocks : List Bytes) (r : PgzfReader D)
    (pos : Nat) : Prop where
  session : InSession file index blocks { r with inner := r.inner.calm } pos
  honest : r.inner.Honest

/-- The refill the call may need is a safe one, and
if the call is a read that fails it stops short. -/
def KeepsPosition (r : PgzfReader D) (call : ReaderCall) : Prop :=
  SafeCall r call ∧ ∀ n e r', call = .read n → PgzfReader.read n r = .error (.error e) r' →
    StopsShort r

theorem Follows.position (hd : Describes D file index blocks)
    (h : Follows file index blocks r pos) : r.position = pos := by
  have htracks := h.session.tracks
  rw [PgzfReader.position]
  cases hpending : r.pendingSeek with
  | some target => exact (htracks.pending target hpending).1
  | none =>
    obtain ⟨j, hplaced⟩ := htracks.placed hpending
    have hlen : r.readahead.length = r.nextBlockIndex - j := by
      have hle := hplaced.next_le
      rw [hplaced.queue, List.length_take, List.length_drop]
      simp only at hle ⊢
      omega
    have hle := hplaced.le_next
    have hoffset := hplaced.offset_eq
    have hlast := hplaced.next_le
    simp only at hle hoffset hlast
    rw [htracks.index_eq, Option.getD_none, Option.bind_some, hlen,
      show r.nextBlockIndex - (r.nextBlockIndex - j) = j by omega,
      hd.getElem?_uncompressedOffsets.mpr ⟨by omega, rfl⟩, Option.getD_some]
    omega

theorem Follows.kept (h : Follows file index blocks r pos) {r' : PgzfReader D} (hkept : Kept r r') :
    Follows file index blocks r' pos := by
  obtain ⟨batch, s, hs, rfl⟩ := hkept
  obtain ⟨⟨⟨p, hin⟩, hpgzf, hindex, hsize, hsound, hle, hpending, hplaced⟩, hunlimited⟩ := h.session
  have hbytes : s.bytes = file := hs.bytes_eq.trans (congrArg Source.bytes hin)
  refine ⟨⟨⟨⟨s.pos, ?_⟩, hpgzf, hindex, hsize, hsound.cacheLookups batch, hle, hpending, ?_⟩,
    hunlimited⟩, h.honest.later hs⟩
  · rw [Source.calm, hbytes]
  · intro hnone
    obtain ⟨j, hj⟩ := hplaced hnone
    exact ⟨j, hj.le_next, hj.next_le, hj.queue, hj.offset_eq, hj.current, hj.eof⟩

/-- A call on a source that fails now and then ends
as on a calm one, or with a fault of the source. -/
theorem ReaderCall.run_calm (hpgzf : r.isPgzf = true) (hs : r.inner.Honest) (call : ReaderCall) :
    EndsUnless SourceFault (Alike (fun s t => t = s.calm ∧ s.Honest) Eq) Eq (call.run r)
      (call.run { r with inner := r.inner.calm }) := by
  have halike : Alike (fun s t => t = s.calm ∧ s.Honest) Eq r { r with inner := r.inner.calm } :=
    ⟨hpgzf, ⟨rfl, hs⟩, rfl⟩
  cases call with
  | seekToByte offset =>
    rw [ReaderCall.run, PgzfReader.seekToByte]
    refine EndsUnless.bind (Q := Alike (fun s t => t = s.calm ∧ s.Honest) Eq) (V := Eq) ?_
      (fun _ _ h => h) ?_
    · rw [bind_ok (get_apply _), bind_ok (get_apply _)]
      exact EndsUnless.ite Iff.rfl (fun _ => .inr ⟨rfl, halike⟩) fun _ => .inr ⟨rfl, hpgzf,
        ⟨rfl, hs⟩, rfl⟩
    · rintro - - t t' - ht
      exact .inr ⟨rfl, ht⟩
  | read n =>
    apply (read_alike sourcePair_calm cachePair_eq halike (fun _ {c c'} h => h) n).bind
      (fun _ _ h => h)
    rintro out _ t t' rfl ht
    exact .inr ⟨rfl, ht⟩

theorem ReaderCall.eq_read_of_error (hpgzf : r.isPgzf = true) {call : ReaderCall} {fault : Fault}
    {r' : PgzfReader D} (h : call.run r = .error fault r') :
    ∃ n, call = .read n ∧ PgzfReader.read n r = .error fault r' := by
  cases call with
  | seekToByte offset =>
    rw [ReaderCall.run, PgzfReader.seekToByte] at h
    simp [Program.bind_apply, hpgzf] at h
  | read n =>
    cases hread : PgzfReader.read n r with
    | ok out s =>
      rw [ReaderCall.run, bind_ok hread] at h
      exact absurd h (by simp)
    | error fault' s =>
      rw [ReaderCall.run, bind_error hread] at h
      obtain ⟨rfl, rfl⟩ := EStateM.Result.error.inj h
      exact ⟨n, rfl, hread⟩

theorem Follows.call (hd : Describes D file index blocks) (h : Follows file index blocks r pos)
    {call : ReaderCall} (hrange : call.inRange blocks.flatten.length)
    (hkeeps : KeepsPosition r call) :
    ∃ answer r', Prog.attempt call.run r = .ok answer r' ∧
      (answer = .ok (call.step blocks pos).1 ∧
        Follows file index blocks r' (call.step blocks pos).2 ∨
        (∃ n e, call = .read n ∧ answer = .error e) ∧ Follows file index blocks r' pos) := by
  have hpgzf : r.isPgzf = true := h.session.tracks.isPgzf
  obtain ⟨last, hcalm, hsession, -⟩ := h.session.call hd hrange hkeeps.1
  have hends := ReaderCall.run_calm hpgzf h.honest call
  rw [hcalm] at hends
  cases hrun : call.run r with
  | ok answer r' =>
    rw [hrun] at hends
    obtain ⟨_, t, ht, rfl, halike⟩ := hends.of_ok
    obtain ⟨hanswer, rfl⟩ := EStateM.Result.ok.inj ht
    refine ⟨_, r', Prog.attempt_ok hrun, .inl ⟨by rw [hanswer], ?_⟩⟩
    obtain ⟨-, ⟨rfl, hhonest⟩, rfl⟩ := halike
    exact ⟨hsession, hhonest⟩
  | error fault r' =>
    obtain ⟨n, rfl, hread⟩ := ReaderCall.eq_read_of_error hpgzf hrun
    rw [hrun] at hends
    -- the calm source does not fail, so this is a fault of the source
    rcases hends with ⟨e, t, hend, he⟩ | hends
    · obtain ⟨rfl, rfl⟩ := EStateM.Result.error.inj hend
      obtain ⟨e, rfl, -⟩ := he
      have hkept := FailedRead.kept hpgzf ⟨hkeeps.2 n _ _ rfl hread, n, _, hread⟩
      exact ⟨_, r', Prog.attempt_error hrun, .inr ⟨⟨n, _, rfl, rfl⟩, h.kept hkept⟩⟩
    · exact absurd hends id

/-- Where every failing read of a session stops short, the
reader is a cursor that a failing read does not move. -/
theorem failing_session (hd : Describes D file index blocks) {calls : List ReaderCall}
    (hrange : ∀ call ∈ calls, call.inRange blocks.flatten.length)
    (h : Follows file index blocks r pos)
    (hkeeps : AllSteps (fun call => Prog.attempt (ReaderCall.run call)) KeepsPosition r calls) :
    ∃ answers r', (calls.mapM fun call => Prog.attempt (ReaderCall.run call)) r = .ok answers r' ∧
      FailingCursorRun blocks.flatten pos calls answers r'.position := by
  induction calls generalizing r pos with
  | nil =>
    refine ⟨[], r, rfl, ?_⟩
    rw [h.position hd]
    exact .nil pos
  | cons call rest ih =>
    obtain ⟨hnow, hlater⟩ := hkeeps
    have hcall := hrange call List.mem_cons_self
    obtain ⟨answer, mid, hrun, hcases⟩ := h.call hd hcall hnow
    have hcons : ∀ answers r', (rest.mapM fun call => Prog.attempt (ReaderCall.run call)) mid =
        .ok answers r' →
        ((call :: rest).mapM fun call => Prog.attempt (ReaderCall.run call)) r =
            .ok (answer :: answers) r' := by
      intro answers r' hrest
      rw [List.mapM_cons, bind_ok hrun, bind_ok hrest, pure_apply]
    rcases hcases with ⟨rfl, hmid⟩ | ⟨⟨n, e, rfl, rfl⟩, hmid⟩
    · obtain ⟨answers, r', hrest, hcursor⟩ :=
        ih (fun c hc => hrange c (List.mem_cons_of_mem _ hc)) hmid (hlater _ _ hrun)
      refine ⟨_, r', hcons _ _ hrest, ?_⟩
      cases call with
      | seekToByte offset => exact .seekToByte hcursor
      | read n =>
        refine .read (BlockCursor.read_fst blocks pos n) (List.length_take_le n _) ?_ hcursor
        intro hn hnil
        have hend := (BlockCursor.read_fst_eq_nil_iff hn).mp hnil
        have hle := h.session.tracks.pos_le
        omega
    · obtain ⟨answers, r', hrest, hcursor⟩ :=
        ih (fun c hc => hrange c (List.mem_cons_of_mem _ hc)) hmid (hlater _ _ hrun)
      exact ⟨_, r', hcons _ _ hrest, .failed hcursor⟩

theorem follows_configured (D : Deps) (file : Bytes) (index : PgzfIndex) (blocks : List Bytes)
    {faults : List (Option IoError)} (hfaults : ∀ e, some e ∈ faults → e.kind ≠ .unexpectedEof)
    (size capacity : Nat) (cacheLimit : Option Nat) :
    Follows file index blocks { (fresh D file index).configured size capacity cacheLimit
      with inner := ⟨file, 0, faults⟩ }
      0 := by
  have hsession := inSession_configured D file index blocks size capacity cacheLimit
  refine ⟨?_, hfaults⟩
  cases cacheLimit with
  | none => exact hsession
  | some maxBytes => exact hsession

end Session

/-- A read that fails and stops short does not move the reader, whatever its state, its file and its
source. Behind such reads the next one that succeeds answers as it would have in front of them; and
in a session on a file that its index describes, where every read that fails stops short, each read
that succeeds delivers what follows the bytes before it. -/
theorem failed_reads_keep_position (D : Deps) :
    (∀ r r' : PgzfReader D, r.isPgzf = true → Relation.TransGen FailedRead r r' →
      r'.position = r.position ∧
      ∀ n out r'', PgzfReader.read n r' = .ok out r'' →
        ∃ last, PgzfReader.read n { r with inner := r'.inner } = .ok out last ∧
          last.position = r''.position) ∧
    ∀ (file : Bytes) (q : Nat) (reader : PgzfReader D) (s' : Source),
      new D ⟨file, q, []⟩ = .ok reader s' →
      reader.isPgzf = true → ∀ (index : PgzfIndex) (blocks : List Bytes),
        reader.index = some index →
      Describes D file index blocks → ∀ (faults : List (Option IoError)),
        (∀ e, some e ∈ faults → e.kind ≠ .unexpectedEof) →
      ∀ (size capacity : Nat) (cacheLimit : Option Nat) (calls : List ReaderCall),
        (∀ call ∈ calls, call.inRange blocks.flatten.length) →
        AllSteps (fun call => Prog.attempt (ReaderCall.run call)) KeepsPosition
          { reader.configured size capacity cacheLimit with inner := ⟨file, 0, faults⟩ } calls →
        ∃ answers r, (calls.mapM fun call => Prog.attempt (ReaderCall.run call))
            { reader.configured size capacity cacheLimit with inner := ⟨file, 0, faults⟩ } =
              .ok answers r ∧
          FailingCursorRun blocks.flatten 0 calls answers r.position := by
  constructor
  · intro r r' hpgzf hfailed
    constructor
    · obtain ⟨batch, s, -, rfl⟩ := kept_of_failedReads hpgzf hfailed
      rfl
    · intro n out r'' hread
      obtain ⟨last, hlast, halike⟩ := read_after_failed hpgzf hfailed hread
      refine ⟨last, hlast, ?_⟩
      obtain ⟨-, -, -⟩ := halike
      rfl
  · intro file q reader s' hnew hpgzf index blocks hindex hd faults hfaults size capacity cacheLimit
      calls hrange hkeeps
    obtain ⟨index', rfl⟩ := eq_fresh_of_new hnew hpgzf
    obtain rfl := Option.some.inj hindex
    exact failing_session hd hrange
      (follows_configured D file _ blocks hfaults size capacity cacheLimit) hkeeps

/-! ### Samples -/

/-- A session, then two reads: the position in front of them, what the first comes to and what the
second delivers. -/
def sessionThenReads (session : List ReaderCall) (n : Nat) :
    Prog (PgzfReader D) (Nat × Except PgzfError Bytes × Bytes) := do
  let _ ← session.mapM ReaderCall.run
  let r ← get
  let first ← Prog.attempt (PgzfReader.read n)
  let second ← PgzfReader.read n
  return (r.position, first, second)

theorem of_sessionThenReads {session : List ReaderCall} {n pos : Nat} {start : PgzfReader D}
    {e : PgzfError} {out : Bytes}
    (h : outcome (sessionThenReads session n start) = .ok (pos, .error e, out)) :
    ∃ answers r r' r'', (session.mapM ReaderCall.run) start = .ok answers r ∧ r.position = pos ∧
      PgzfReader.read n r = .error (.error e) r' ∧ PgzfReader.read n r' = .ok out r'' := by
  obtain ⟨last, hrun⟩ := exists_of_outcome h
  obtain ⟨answers, r, hsession, hreads⟩ := of_bind_ok hrun
  rw [bind_ok (get_apply _)] at hreads
  obtain ⟨first, r', hfirst, hsecond⟩ := of_bind_ok hreads
  obtain ⟨second, r'', hread, hend⟩ := of_bind_ok hsecond
  obtain ⟨hsame, -⟩ := EStateM.Result.ok.inj hend
  obtain ⟨hpos, hpair⟩ := Prod.mk.inj hsame
  obtain ⟨rfl, rfl⟩ := Prod.mk.inj hpair
  refine ⟨answers, r, r', r'', hsession, hpos, ?_, hread⟩
  rw [Prog.attempt] at hfirst
  cases hcase : PgzfReader.read n r with
  | ok a t =>
    rw [hcase] at hfirst
    exact absurd hfirst (by simp)
  | error fault t =>
    rw [hcase] at hfirst
    cases fault with
    | error e' =>
      obtain ⟨herror, rfl⟩ := EStateM.Result.ok.inj hfirst
      rw [Except.error.inj herror]
    | panic message => exact absurd hfirst (by simp)
    | diverges => exact absurd hfirst (by simp)

namespace Stored

/-- The reader of the sample file, with a readahead of
one block and a source whose next operation fails. -/
def failingReader : PgzfReader deps :=
  { (fresh deps sampleFile sampleIndex).configured 1 64 none with
    inner := ⟨sampleFile, 0, [some ⟨.other, "device not ready"⟩]⟩ }

def badCrc : Bytes := sampleFile.take 74 ++ [0] ++ sampleFile.drop 75

def badCrcReader : PgzfReader deps := (fresh deps badCrc sampleIndex).configured 2 64 none

theorem failingReader_stopsShort : StopsShort failingReader := by
  refine ⟨rfl, ?_⟩
  intro index first _ _ s hseek
  have hfails : Source.seekStart ((index.compressedOffset first).getD 0) failingReader.inner =
      .error (.error (.io ⟨.other, "device not ready"⟩)) ⟨sampleFile, 0, []⟩ := rfl
  exact absurd (hfails.symm.trans hseek) (by simp)

end Stored

theorem failed_reads_keep_position_sample :
    (∃ e r' r'' last, PgzfReader.read 2 Stored.failingReader = .error (.error e) r' ∧
      r'.position = Stored.failingReader.position ∧ PgzfReader.read 2 r' = .ok [97, 98] r'' ∧
        PgzfReader.read 2 { Stored.failingReader with inner := r'.inner } = .ok [97, 98] last) ∧
    ∃ answers r,
      ([ReaderCall.read 2, .seekToByte 3].mapM fun call => Prog.attempt (ReaderCall.run call))
        Stored.failingReader = .ok answers r ∧
      FailingCursorRun (Stored.sampleConfig.blocksOf Stored.sampleBufs.flatten).flatten 0
        [.read 2, .seekToByte 3] answers
        r.position := by
  obtain ⟨hany, hsessions⟩ := failed_reads_keep_position Stored.deps
  constructor
  · have hreads : outcome (sessionThenReads [] 2 Stored.failingReader) =
        .ok (0, .error (.io ⟨.other, "device not ready"⟩), [97, 98]) := by decide +kernel
    obtain ⟨answers, r, r', r'', hsession, -, hfirst, hsecond⟩ := of_sessionThenReads hreads
    obtain ⟨-, rfl⟩ := EStateM.Result.ok.inj hsession
    obtain ⟨hpos, hlater⟩ := hany _ r' rfl (.single ⟨Stored.failingReader_stopsShort, 2, _, hfirst⟩)
    obtain ⟨last, hlast, -⟩ := hlater 2 _ r'' hsecond
    exact ⟨_, r', r'', last, hfirst, hpos, hsecond, hlast⟩
  · refine hsessions Stored.sampleFile 0 _ _ (new_written Stored.sample_withinLimits (by decide)
      (by decide) 0) rfl _ _ rfl
      (describes_written Stored.sample_withinLimits Stored.sample_codec)
        [some ⟨.other, "device not ready"⟩] (by simp) 1 64 none _ (by decide) ?_
    refine ⟨⟨?_, fun _ _ _ _ _ => Stored.failingReader_stopsShort⟩, ?_⟩
    · intro _ _ _
      apply safeRefill_of_lookup_none
        (lookup_configured (fresh Stored.deps Stored.sampleFile Stored.sampleIndex) 1 64 none)
      intro index hindex
      obtain rfl := Option.some.inj hindex
      decide +kernel
    · intro answer mid _
      exact ⟨⟨fun n hn => absurd hn (by simp), fun n e r' hn => absurd hn (by simp)⟩,
        fun _ _ _ => trivial⟩

/-- A block that fails its check takes the good block in front of it along, and a seek whose read
fails is forgotten. -/
theorem failed_reads_move :
    (∃ s, new Stored.deps ⟨Stored.badCrc,
      0, []⟩ = .ok (fresh Stored.deps Stored.badCrc Stored.sampleIndex) s) ∧
    (∃ e r' r'' last, Stored.badCrcReader.position = 0 ∧
      PgzfReader.read 2 Stored.badCrcReader = .error (.error e) r' ∧
        PgzfReader.read 2 r' = .ok [101, 102] r'' ∧
        PgzfReader.read 2 { Stored.badCrcReader with readaheadSize := 1 } = .ok [97, 98] last) ∧
    (∃ s, new Stored.deps ⟨Stored.sampleFile,
      0, []⟩ = .ok (fresh Stored.deps Stored.sampleFile Stored.sampleIndex) s) ∧
    ∃ e answers r r' r'', ([.seekToByte 3].mapM ReaderCall.run) Stored.failingReader =
      .ok answers r ∧ r.position = 3 ∧
      PgzfReader.read 2 r = .error (.error e) r' ∧ PgzfReader.read 2 r' = .ok [97, 98] r'' ∧
        (Stored.sampleBufs.flatten.drop 3).take 2 = [100, 101] := by
  have hbuild : outcome (build ⟨Stored.badCrc, 0, []⟩) = .ok Stored.sampleIndex := by decide +kernel
  have hcrc : outcome (sessionThenReads [] 2 Stored.badCrcReader) =
      .ok (0, .error (.io ⟨.invalidData,
      "CRC32 mismatch: expected 0x45d68f00, computed 0x45d68fda"⟩), [101, 102]) := by decide +kernel
  have hseek : outcome (sessionThenReads [.seekToByte 3] 2 Stored.failingReader) =
      .ok (3, .error (.io ⟨.other, "device not ready"⟩), [97, 98]) := by decide +kernel
  refine ⟨⟨_, new_eq (by decide +kernel) (build_of_outcome hbuild) 0⟩, ?_,
    ⟨_, new_written Stored.sample_withinLimits (by decide) (by decide) 0⟩, ?_⟩
  · obtain ⟨answers, r, r', r'', hsession, hpos, hfirst, hsecond⟩ := of_sessionThenReads hcrc
    obtain ⟨-, rfl⟩ := EStateM.Result.ok.inj hsession
    obtain ⟨last, halone⟩ := exists_of_outcome (show outcome (PgzfReader.read 2
      { Stored.badCrcReader with readaheadSize := 1 }) = .ok [97, 98] by decide +kernel)
    exact ⟨_, r', r'', last, hpos, hfirst, hsecond, halone⟩
  · obtain ⟨answers, r, r', r'', hsession, hpos, hfirst, hsecond⟩ := of_sessionThenReads hseek
    exact ⟨_, answers, r, r', r'', hsession, hpos, hfirst, hsecond, by decide⟩

end Pgzf
