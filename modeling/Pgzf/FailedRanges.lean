import Pgzf.Displaced

/-!
# Ranges that fail

A call of `read_blocks` that fails has moved the source and overwritten the number of the next
block, and nothing else. The reads behind it are the same as without the call only as long as they
do not look at that number.
-/

namespace Pgzf

open PgzfReader PgzfIndex Program

variable {D : Deps} {index : PgzfIndex} {r r' : PgzfReader D}

/-! ### The members of a range -/

def PgzfReader.RawTags.Unreadable (tags : RawTags) (xlen : Nat) : Prop :=
  tags.zc = 0 ∨ 2 ^ 30 < tags.zc.toNat ∨ tags.zc.toNat < gzipFixedHeaderSize + 2 + xlen

instance (tags : RawTags) (xlen : Nat) : Decidable (tags.Unreadable xlen) :=
  inferInstanceAs (Decidable (_ ∨ _))

/-- The members of a range without their data: how many headers of data blocks the source comes to,
and the source behind them. -/
def Source.walk : Nat → Nat → Source → Nat × Source
  | 0, _, s => (0, s)
  | fuel + 1, count, s =>
    if count = 0 then
      (0, s)
    else
      match Source.readHeader s with
      | .error _ s' => (0, s')
      | .ok (xlen, tags) s' =>
        if tags.Unreadable xlen then
          (tags.count, s')
        else
          match Source.readExact (tags.zc.toNat - (gzipFixedHeaderSize + 2 + xlen)) s' with
          | .error _ s'' => (tags.count, s'')
          | .ok _ s'' =>
            let walked := walk fuel (count - tags.count) s''
            (tags.count + walked.1, walked.2)

/-- What the loop of `read_blocks` does to the reader, however it ends. -/
theorem readBlocksLoop_walk (fuel count : Nat) (rawBatch : List (Bytes × Nat)) (r : PgzfReader D) :
    Post (fun _ r' => r' = r.counted (Source.walk fuel count r.inner).2
      (Source.walk fuel count r.inner).1)
      (fun _ r' => r' = r.counted (Source.walk fuel count r.inner).2
        (Source.walk fuel count r.inner).1)
      (readBlocksLoop fuel count rawBatch r) := by
  induction fuel generalizing r count rawBatch with
  | zero => exact rfl
  | succ fuel ih =>
    rw [readBlocksLoop, Source.walk]
    by_cases hzero : count = 0
    · rw [if_pos hzero, if_pos hzero]
      exact rfl
    rw [if_neg hzero, if_neg hzero]
    cases hheader : Source.readHeader r.inner with
    | error fault s =>
      apply (readOneRawBlock_of_header_error hheader).bind
      rintro found r' ⟨rfl, rfl⟩
      exact rfl
    | ok header s =>
      obtain ⟨xlen, tags⟩ := header
      obtain ⟨front, hread⟩ := readOneRawBlock_of_header_ok hheader
      simp only
      by_cases hzc : tags.Unreadable xlen
      · rw [if_pos hzc]
        refine Post.bind (Q := fun found r' => found = none ∧ r' = r.counted s tags.count) ?_ ?_
        · rw [hread]
          refine Post.ite (fun _ => ⟨rfl, rfl⟩) fun hsome => ?_
          refine Post.ite (fun _ => rfl) fun hlarge => Post.ite (fun _ => rfl) fun hsmall => ?_
          exact absurd hzc (not_or.mpr ⟨hsome, not_or.mpr ⟨hlarge, hsmall⟩⟩)
        · rintro found r' ⟨rfl, rfl⟩
          exact rfl
      · rw [if_neg hzc]
        obtain ⟨hsome, hlater⟩ := not_or.mp hzc
        obtain ⟨hlarge, hsmall⟩ := not_or.mp hlater
        rw [if_neg hsome, if_neg hlarge, if_neg hsmall] at hread
        cases hbody : Source.readExact (tags.zc.toNat - (gzipFixedHeaderSize + 2 + xlen)) s with
        | error fault s' =>
          have hrun := onInner_error (r := r.counted s tags.count) hbody
          rw [bind_error (hread.trans (bind_error hrun))]
          exact rfl
        | ok rest s' =>
          have hrun := onInner_ok (r := r.counted s tags.count) hbody
          rw [bind_ok (hread.trans (bind_ok hrun))]
          have hrest := ih (count - tags.count)
          have hadd : ∀ walked : Nat × Source, (r.counted s' tags.count).counted walked.2 walked.1 =
              r.counted walked.2 (tags.count + walked.1) := by
            intro walked
            simp only [PgzfReader.counted, Nat.add_assoc]
          simp only [← hadd]
          by_cases hidx : tags.blockType = .idx
          · have hnone : tags.count = 0 := if_pos hidx
            simp only [hidx, if_true, hnone, Nat.sub_zero] at hrest ⊢
            exact hrest rawBatch (r.counted s' 0)
          · have hone : tags.count = 1 := if_neg hidx
            simp only [hidx, if_false, hone] at hrest ⊢
            exact hrest _ (r.counted s' 1)

theorem walk_later (fuel count : Nat) (s : Source) : s.Later (Source.walk fuel count s).2 := by
  induction fuel generalizing count s with
  | zero => exact .refl s
  | succ fuel ih =>
    rw [Source.walk]
    split
    · exact .refl s
    have hlater := readHeader_later s
    cases hheader : Source.readHeader s with
    | error fault s' =>
      rw [hheader] at hlater
      exact hlater
    | ok header s' =>
      obtain ⟨xlen, tags⟩ := header
      rw [hheader] at hlater
      simp only
      split
      · exact hlater
      have hbody := readExact_later s' (tags.zc.toNat - (gzipFixedHeaderSize + 2 + xlen))
      cases hrun : Source.readExact (tags.zc.toNat - (gzipFixedHeaderSize + 2 + xlen)) s' with
      | error fault s'' =>
        rw [hrun] at hbody
        exact hlater.trans hbody
      | ok rest s'' =>
        rw [hrun] at hbody
        exact (hlater.trans hbody).trans (ih _ s'')

/-- What a call that fails leaves: it has used the source and nothing else, or it has read members
of the range and counted them. -/
inductive RangeFailure (r : PgzfReader D) (start count : Nat) : PgzfReader D → Prop
  | unmoved {s : Source} : r.inner.Later s → RangeFailure r start count { r with inner := s }
  | walked {index : PgzfIndex} {offset : Nat} {s : Source} {walked : Nat × Source} :
    r.index = some index →
    start < index.blockCount → index.compressedOffset start = some offset →
      Source.seekStart offset r.inner = .ok () s →
    walked = Source.walk (s.bytes.length + 1) (min index.blockCount (start + count) - start) s →
    RangeFailure r start count { r with inner := walked.2, nextBlockIndex := start + walked.1 }

theorem readBlocks_failed (start count : Nat) (r : PgzfReader D) :
    Post (fun _ _ => True) (fun _ r' => RangeFailure r start count r')
      (readBlocks start count r) := by
  have hsame : RangeFailure r start count r := RangeFailure.unmoved (.refl _)
  rw [readBlocks, bind_ok (get_apply _)]
  refine Post.ite (fun _ => hsame) fun _ => ?_
  cases hindex : r.index with
  | none => exact hsame
  | some index =>
    refine Post.ite (fun _ => hsame) fun hstart =>
      Post.bind (Q := fun limit s => limit = start + count ∧ r = s) ?_ ?_
    · rw [addU64]
      exact Post.ite (fun _ => ⟨rfl, rfl⟩) fun _ => hsame
    rintro limit _ ⟨rfl, rfl⟩
    refine Post.ite (fun _ => trivial) fun _ => ?_
    cases hoffset : index.compressedOffset start with
    | none => exact hsame
    | some offset =>
      simp only
      cases hgo : Source.seekStart offset r.inner with
      | error fault s =>
        have hlater := seekStart_later r.inner offset
        rw [hgo] at hlater
        rw [bind_error (onInner_error hgo)]
        exact .unmoved hlater
      | ok u s =>
        rw [bind_ok (onInner_ok hgo), bind_ok (modify_apply _ _), bind_ok (get_apply _)]
        have hwalk :=
          readBlocksLoop_walk (s.bytes.length + 1) (min index.blockCount (start + count) - start) []
          { r with inner := s, nextBlockIndex := start }
        have hwalked : RangeFailure r start count _ :=
          .walked hindex (Nat.not_le.mp hstart) hoffset hgo rfl
        refine Post.bind (hwalk.mono (fun _ _ h => h) ?_) ?_
        · rintro fault _ rfl
          exact hwalked
        rintro rawBatch _ rfl
        refine Post.bind (Q := fun _ _ => True) ?_ fun _ _ _ => trivial
        rw [decompressBlocks_eq]
        cases rawBatch.mapM fun x => decompressRawBlockWith D x.1 x.2 with
        | ok datas => exact trivial
        | error e => exact hwalked

/-! ### The reads behind the call -/

/-- The condition on the reader the call is made on: where the source gets to block `start` at all,
and the members of the range are read from there, the reads to come do not tell the number that is
left from the one there was. -/
def RangeKeepsPlace (r : PgzfReader D) (start count : Nat) : Prop :=
  ∀ index offset s walked, r.index = some index → start < index.blockCount →
    index.compressedOffset start = some offset → Source.seekStart offset r.inner = .ok () s →
      walked = Source.walk (s.bytes.length + 1) (min index.blockCount (start + count) - start) s →
        PlaceKept index (start + walked.1) { r with inner := walked.2 }

theorem RangeFailure.later {start count : Nat} (h : RangeFailure r start count r') :
    r.inner.Later r'.inner := by
  cases h with
  | unmoved hlater => exact hlater
  | @walked index offset s walked _ _ _ hgo hwalked =>
    have hlater := seekStart_later r.inner offset
    rw [hgo] at hlater
    rw [hwalked]
    exact hlater.trans (walk_later _ _ s)

/-- A call that fails leaves reading as it was, wherever it leaves
the reader in a place that the reads to come do not tell from the one
before; the source then only has some of its operations behind it. -/
theorem failed_range_keeps_reads (hpgzf : r.isPgzf = true) {start count : Nat} {e : PgzfError}
    (h : PgzfReader.readBlocks start count r = .error (.error e) r')
    (hkeeps : RangeKeepsPlace r start count) :
    SameReads r' { r with inner := { r.inner with faults := r'.inner.faults } } := by
  have hfailed := readBlocks_failed start count r
  rw [h] at hfailed
  have hcursor : { r with inner := { r.inner with faults := r'.inner.faults } } =
      PgzfReader.withCursor { r with inner := r'.inner } r.inner.pos := by
    simp only [PgzfReader.withCursor, hfailed.later.bytes_eq]
  rw [hcursor]
  refine SameReads.trans ?_ (sameReads_withCursor (by exact hpgzf) r.inner.pos)
  cases hfailed with
  | unmoved _ => exact fun _ => rfl
  | walked hindex hstart hoffset hgo hwalked =>
    exact (hkeeps _ _ _ _ hindex hstart hoffset hgo hwalked).sameReads

namespace Stored

/-- The reader of the file whose second block fails its check, with a readahead of one block. -/
def badBlockReader : PgzfReader deps := (fresh deps badCrc sampleIndex).withReadahead 1

theorem new_badCrc : ∃ s, new deps ⟨badCrc, 0, []⟩ = .ok (fresh deps badCrc sampleIndex) s :=
  have hbuild : outcome (build ⟨badCrc, 0, []⟩) = .ok sampleIndex := by decide +kernel
  ⟨_, new_eq (by decide +kernel) (build_of_outcome hbuild) 0⟩

theorem reachable_badBlock : Reachable ⟨badCrc, 0, []⟩ badBlockReader := by
  obtain ⟨s, hnew⟩ := new_badCrc
  exact ⟨_, s, hnew, .single (.setting (.withReadahead (by decide)))⟩

end Stored

/-- With a seek to the first byte pending, the second block is asked for in vain. -/
theorem failed_range_keeps_reads_sample :
    ∃ e r', PgzfReader.readBlocks 1 1 { Stored.badBlockReader with pendingSeek := some 0 } =
      .error (.error e) r' ∧
      SameReads r' { Stored.badBlockReader with
        inner := { Stored.badBlockReader.inner with faults := r'.inner.faults },
        pendingSeek := some 0 } := by
  have hfails : outcome (Prog.attempt (PgzfReader.readBlocks 1 1)
      { Stored.badBlockReader with pendingSeek := some 0 }) =
      .ok (.error
          (.io ⟨.invalidData, "CRC32 mismatch: expected 0x45d68f00, computed 0x45d68fda"⟩)) := by
    decide +kernel
  obtain ⟨r', hattempt⟩ := exists_of_outcome hfails
  rcases Prog.of_attempt_ok hattempt with ⟨out, hout, -⟩ | ⟨e, -, hrun⟩
  · exact absurd hout (by simp)
  refine ⟨e, r', hrun, failed_range_keeps_reads rfl hrun ?_⟩
  intro index offset s walked hindex hstart hoffset hgo hwalked
  obtain rfl := Option.some.inj hindex
  have hlater := RangeFailure.later (.walked hindex hstart hoffset hgo hwalked)
  have hfaults : walked.2.faults = [] := List.suffix_nil.mp hlater.faults_suffix
  have hready : walked.2.Ready := fun e => by simp [hfaults]
  exact .sought ⟨rfl, hready, 0, 0, 0, rfl, by decide +kernel, .inr (by decide +kernel)⟩

/-- The second block is asked for in vain, and reading starts with the third one where it would have
started with the first. -/
theorem failed_range_moves :
    Reachable ⟨Stored.badCrc, 0, []⟩ Stored.badBlockReader ∧
      ∃ e r' r'' last, PgzfReader.readBlocks 1 1 Stored.badBlockReader = .error (.error e) r' ∧
        PgzfReader.read 2 r' = .ok [101, 102] r'' ∧
          PgzfReader.read 2 Stored.badBlockReader = .ok [97, 98] last ∧
        r'.inner.faults = [] ∧ ¬ SameReads r' Stored.badBlockReader := by
  have hfails : outcome ((do
      let failed ← Prog.attempt (PgzfReader.readBlocks 1 1)
      let left ← get
      let out ← PgzfReader.read 2
      return (failed, left.inner.faults, out) : Prog (PgzfReader Stored.deps)
        (Except PgzfError Bytes × List (Option IoError) × Bytes)) Stored.badBlockReader) =
      .ok (.error (.io ⟨.invalidData, "CRC32 mismatch: expected 0x45d68f00, computed 0x45d68fda"⟩),
          [], [101, 102]) := by
    decide +kernel
  have halone : outcome (PgzfReader.read 2 Stored.badBlockReader) = .ok [97, 98] := by
    decide +kernel
  obtain ⟨r'', hrun⟩ := exists_of_outcome hfails
  obtain ⟨last, hlast⟩ := exists_of_outcome halone
  obtain ⟨failed, r', hattempt, hrun⟩ := of_bind_ok hrun
  rw [bind_ok (get_apply _)] at hrun
  obtain ⟨out, _, hread, hrun⟩ := of_bind_ok hrun
  obtain ⟨hsame, rfl⟩ := EStateM.Result.ok.inj hrun
  obtain ⟨rfl, hrest⟩ := Prod.mk.inj hsame
  obtain ⟨hfaults, rfl⟩ := Prod.mk.inj hrest
  rcases Prog.of_attempt_ok hattempt with ⟨out, hout, -⟩ | ⟨e, -, hblocks⟩
  · exact absurd hout (by simp)
  refine ⟨Stored.reachable_badBlock, e, r', _, last, hblocks, hread, hlast, hfaults,
    fun hreads => ?_⟩
  have hone := hreads [2]
  rw [List.mapM_cons, List.mapM_nil, bind_ok (Prog.attempt_ok hread),
    bind_ok (Prog.attempt_ok hlast)] at hone
  exact absurd (Except.ok.inj hone) (by simp)

end Pgzf
