import Pgzf.Append

/-!
# The labels of raw blocks

`read_one_raw_block` labels a block with `next_block_index`, which is right as long as the source
stands in front of that block, index members aside. `InStep` says that it does. Raw reads and
`read_blocks` keep the two in step, and so does a read that fetches a batch from the file. A seek by
bytes moves neither before the next read; until then, and behind `seek_to_block` and a refill that
the cache serves alone, the label may be that of another block.
-/

namespace Pgzf

open PgzfReader PgzfIndex

variable {D : Deps} {file : Bytes} {index : PgzfIndex} {raws blocks : List Bytes}
  {r r' : PgzfReader D}

/-! ### Labels and positions -/

variable (D) in
/-- The members `raws` with the data `blocks` stand in the file as its index lists them. -/
structure Laid (file : Bytes) (index : PgzfIndex) (raws blocks : List Bytes) : Prop where
  described : Describes D file index blocks
  stands : Stands D file 0 raws blocks index.compressedOffsets
  total : index.totalCompressed = file.length

structure InStep (file : Bytes) (index : PgzfIndex) (raws blocks : List Bytes) (r : PgzfReader D) :
    Prop where
  le_count : r.nextBlockIndex ≤ blocks.length
  stands : ∃ p, r.inner = ⟨file, p, []⟩ ∧
    Stands D file p (raws.drop r.nextBlockIndex) (blocks.drop r.nextBlockIndex)
    (index.compressedOffsets.drop r.nextBlockIndex)

theorem Stands.offsets_length {p : Nat} {offsets : List Nat}
    (h : Stands D file p raws blocks offsets) :
    offsets.length = blocks.length + 1 := by
  induction h with
  | stop _ => rfl
  | block _ _ _ _ _ ih => rw [List.length_cons, ih, List.length_cons]

/-- What the raw reader finds: nothing at the last
offset, an index member, or the first of the blocks. -/
theorem Stands.memberAt {p : Nat} {offsets : List Nat} (h : Stands D file p raws blocks offsets) :
    (blocks = [] ∧ offsets = [p]) ∨
      (∃ raw headerSize, memberAt file p = .ok (some (raw, headerSize, .idx)) ∧
        Stands D file (p + raw.length) raws blocks offsets) ∨
      ∃ raw headerSize ty raws' data blocks' offsets',
        memberAt file p = .ok (some (raw, headerSize, ty)) ∧ ty ≠ .idx ∧
        raws = raw :: raws' ∧ blocks = data :: blocks' ∧ offsets = p :: offsets' ∧
        Stands D file (p + raw.length) raws' blocks' offsets' := by
  cases h with
  | stop hleads =>
    cases hleads with
    | here => exact .inl ⟨rfl, rfl⟩
    | idx hat hrest => exact .inr (.inl ⟨_, _, hat, .stop hrest⟩)
  | block hleads hmember hty hintact hrest =>
    cases hleads with
    | here => exact .inr (.inr ⟨_, _, _, _, _, _, _, hmember, hty, rfl, rfl, rfl, hrest⟩)
    | idx hat hnext => exact .inr (.inl ⟨_, _, hat, .block hnext hmember hty hintact hrest⟩)

theorem Laid.inStep (hl : Laid D file index raws blocks) (hle : r.nextBlockIndex ≤ blocks.length)
    (hin : r.inner = ⟨file, (index.compressedOffset r.nextBlockIndex).getD index.totalCompressed,
      []⟩) :
    InStep file index raws blocks r := by
  obtain ⟨q, hq, hstands⟩ := hl.stands.drop hle
  rw [PgzfIndex.compressedOffset, hq, Option.getD_some] at hin
  exact ⟨hle, q, hin, hstands⟩

theorem InStep.congr (h : InStep file index raws blocks r) (hinner : r'.inner = r.inner)
    (hnext : r'.nextBlockIndex = r.nextBlockIndex) : InStep file index raws blocks r' := by
  obtain ⟨hle, p, hin, hstands⟩ := h
  rw [← hnext] at hle hstands
  exact ⟨hle, p, hinner.trans hin, hstands⟩

/-! ### Raw reads -/

theorem readOneRawBlock_end (hin : r.inner = ⟨file, file.length, []⟩) :
    readOneRawBlock r = .ok none r := by
  have hread := onInner_readExact_eof hin (show file.length - file.length < gzipFixedHeaderSize by
    rw [Nat.sub_self, gzipFixedHeaderSize]
    omega)
  rw [← hin] at hread
  rw [readOneRawBlock, Program.bind_ok (Prog.attempt_error hread)]
  rfl

theorem Laid.end_eq (hl : Laid D file index raws blocks) {p : Nat}
    (hlast : index.compressedOffsets.drop blocks.length = [p]) : p = file.length := by
  have htotal := hl.total
  have hlen := hl.stands.offsets_length
  have hget : index.compressedOffsets.getLast? = some p := by
    rw [List.getLast?_eq_getElem?, hlen, Nat.add_sub_cancel, ← List.head?_drop, hlast,
      List.head?_cons]
  rw [PgzfIndex.totalCompressed, hget, Option.getD_some] at htotal
  exact htotal

/-- A raw read keeps the source and the label in step. The data block it returns has the label of
the block that stands there. -/
theorem InStep.readOneRawBlock (hl : Laid D file index raws blocks)
    (h : InStep file index raws blocks r) {found : Option RawBlock}
    (hrun : readOneRawBlock r = .ok found r') :
    InStep file index raws blocks r' ∧
      r' = { r with inner := r'.inner, nextBlockIndex := r'.nextBlockIndex } ∧
      ∀ block, found = some block → block.blockType ≠ .idx → block.blockIndex = r.nextBlockIndex ∧
        r.nextBlockIndex < blocks.length ∧ raws[r.nextBlockIndex]? = some block.raw ∧
        ∃ offset headerSize ty, index.compressedOffset r.nextBlockIndex = some offset ∧
          memberAt file offset = .ok (some (block.raw, headerSize, ty)) := by
  obtain ⟨p, hin, hstands⟩ := h.stands
  have hread := readOneRawBlock_eq hin
  rcases hstands.memberAt with ⟨hnil, hoffsets⟩ | ⟨raw, headerSize, hat, hrest⟩ |
    ⟨raw, headerSize, ty, raws', data, blocks', offsets', hat, hty, hraws, hblocks, hoffsets, hrest⟩
  · -- behind the last block
    have hend : r.nextBlockIndex = blocks.length :=
      Nat.le_antisymm h.le_count (List.drop_eq_nil_iff.mp hnil)
    rw [hend] at hoffsets
    obtain rfl := hl.end_eq hoffsets
    obtain ⟨rfl, rfl⟩ := EStateM.Result.ok.inj ((readOneRawBlock_end hin).symm.trans hrun)
    exact ⟨h, rfl, by simp⟩
  · -- an index member
    rw [hat] at hread
    simp only [if_true] at hread
    obtain ⟨rfl, rfl⟩ := EStateM.Result.ok.inj (hread.symm.trans hrun)
    refine ⟨⟨h.le_count, p + raw.length, rfl, hrest⟩, rfl, ?_⟩
    intro block hblock hdata
    rw [← Option.some.inj hblock] at hdata
    exact absurd rfl hdata
  · -- the next block
    rw [hat] at hread
    simp only [hty, if_false] at hread
    obtain ⟨rfl, rfl⟩ := EStateM.Result.ok.inj (hread.symm.trans hrun)
    have hlt : r.nextBlockIndex < blocks.length := by
      by_contra hge
      rw [List.drop_eq_nil_of_le (Nat.not_lt.mp hge)] at hblocks
      exact absurd hblocks (by simp)
    refine ⟨⟨hlt, p + raw.length, rfl, ?_⟩, rfl, ?_⟩
    · simp only
      rw [← List.tail_drop, ← List.tail_drop, ← List.tail_drop, hraws, hblocks, hoffsets]
      exact hrest
    · intro block hblock _
      obtain rfl := Option.some.inj hblock
      refine ⟨rfl, hlt, ?_, p, headerSize, ty, ?_, hat⟩
      · rw [← List.head?_drop, hraws, List.head?_cons]
      · rw [PgzfIndex.compressedOffset, ← List.head?_drop, hoffsets, List.head?_cons]

theorem InStep.readBlocksLoop (hl : Laid D file index raws blocks) {fuel count : Nat}
    {rawBatch out : List (Bytes × Nat)} (h : InStep file index raws blocks r)
    (hrun : readBlocksLoop fuel count rawBatch r = .ok out r') :
    InStep file index raws blocks r' ∧
      r' = { r with inner := r'.inner, nextBlockIndex := r'.nextBlockIndex } := by
  induction fuel generalizing r count rawBatch with
  | zero => exact absurd hrun (by simp [PgzfReader.readBlocksLoop])
  | succ fuel ih =>
    rw [PgzfReader.readBlocksLoop] at hrun
    split at hrun
    · obtain ⟨-, rfl⟩ := EStateM.Result.ok.inj hrun
      exact ⟨h, rfl⟩
    · obtain ⟨found, mid, hread, hrun⟩ := Program.of_bind_ok hrun
      obtain ⟨hmid, hsame, -⟩ := h.readOneRawBlock hl hread
      cases found with
      | none =>
        obtain ⟨-, rfl⟩ := EStateM.Result.ok.inj hrun
        exact ⟨hmid, hsame⟩
      | some block =>
        simp only at hrun
        split at hrun
        · obtain ⟨hlast, heq⟩ := ih hmid hrun
          rw [hsame] at heq
          exact ⟨hlast, heq⟩
        · obtain ⟨hlast, heq⟩ := ih hmid hrun
          rw [hsame] at heq
          exact ⟨hlast, heq⟩

/-! ### The calls of the reader -/

/-- The reader between two calls. While a seek is
pending, the source and the label may be anywhere. -/
structure Labelled (file : Bytes) (index : PgzfIndex) (raws blocks : List Bytes)
    (r : PgzfReader D) : Prop where
  inner : ∃ p, r.inner = ⟨file, p, []⟩
  isPgzf : r.isPgzf = true
  index_eq : r.index = some index
  readaheadSize : 0 < r.readaheadSize
  sound : r.blockCache.Sound blocks
  inStep : r.pendingSeek = none → InStep file index raws blocks r

theorem Labelled.of_same {mid : PgzfReader D} (h : Labelled file index raws blocks r)
    (hsame : mid = { r with inner := mid.inner, nextBlockIndex := mid.nextBlockIndex })
    (hstep : InStep file index raws blocks mid) : Labelled file index raws blocks mid := by
  obtain ⟨p, hin, -⟩ := hstep.stands
  have hpgzf : mid.isPgzf = r.isPgzf := by rw [hsame]
  have hindex : mid.index = r.index := by rw [hsame]
  have hsize : mid.readaheadSize = r.readaheadSize := by rw [hsame]
  have hcache : mid.blockCache = r.blockCache := by rw [hsame]
  exact ⟨⟨p, hin⟩, hpgzf.trans h.isPgzf, hindex.trans h.index_eq, hsize ▸ h.readaheadSize,
    hcache ▸ h.sound, fun _ => hstep⟩

/-- A refill, with no seek pending, of which every block
is cached: the label moves on, the source does not. -/
def FullyCached (index : PgzfIndex) (r : PgzfReader D) : Prop :=
  r.pendingSeek = none ∧ refillStart index r = some r.nextBlockIndex ∧
    r.nextBlockIndex < index.blockCount ∧ BelowLimit r ∧
    missing r.blockCache r.nextBlockIndex
      (min index.blockCount (r.nextBlockIndex + r.readaheadSize)) = []

theorem Labelled.readOneRawBlock (hl : Laid D file index raws blocks)
    (h : Labelled file index raws blocks r) (hnone : r.pendingSeek = none) {found : Option RawBlock}
    (hrun : readOneRawBlock r = .ok found r') :
    Labelled file index raws blocks r' := by
  obtain ⟨hstep, hsame, -⟩ := (h.inStep hnone).readOneRawBlock hl hrun
  exact h.of_same hsame hstep

theorem Labelled.seekToByte (h : Labelled file index raws blocks r) {offset : Nat}
    (hrun : seekToByte offset r = .ok () r') : Labelled file index raws blocks r' := by
  rw [PgzfReader.seekToByte, Program.bind_ok (Program.get_apply _)] at hrun
  simp only [h.isPgzf, Bool.not_true, Bool.false_eq_true, if_false, Program.set_apply] at hrun
  obtain ⟨-, rfl⟩ := EStateM.Result.ok.inj hrun
  exact ⟨h.inner, rfl, h.index_eq, h.readaheadSize, h.sound, by simp⟩

theorem offsetI64_of_ok {σ : Type} {n target : Nat} {m : Int} {s s' : σ}
    (hok : offsetI64 n m s = .ok target s') :
    s' = s := by
  rw [offsetI64] at hok
  generalize (if n < 2 ^ 63 then (n : Int) else (n : Int) - 2 ^ 64) = signed at hok
  by_cases hfit : -2 ^ 63 ≤ signed + m ∧ signed + m < 2 ^ 63
  · rw [if_pos hfit, Program.pure_apply] at hok
    exact (EStateM.Result.ok.inj hok).2.symm
  · rw [if_neg hfit, Program.throw_apply] at hok
    exact absurd hok (by simp)

theorem Labelled.seek (h : Labelled file index raws blocks r) {pos : SeekFrom} {target : Nat}
    (hrun : seek pos r = .ok target r') : Labelled file index raws blocks r' := by
  have hlater : ∀ {offset : Nat} {mid : PgzfReader D}, mid = r → (do
      modify fun r => { r with
        pendingSeek := some offset
        nextBlockIndex := 0
        currentBlock := []
        currentPos := 0
        readahead := [] }
      return offset : Prog (PgzfReader D) Nat) mid = .ok target r' →
          Labelled file index raws blocks r' := by
    intro offset mid hmid hok
    subst hmid
    rw [Program.bind_ok (Program.modify_apply _ _)] at hok
    obtain ⟨-, rfl⟩ := EStateM.Result.ok.inj hok
    exact ⟨h.inner, h.isPgzf, h.index_eq, h.readaheadSize, h.sound, by simp⟩
  rw [PgzfReader.seek, Program.bind_ok (Program.get_apply _)] at hrun
  cases pos with
  | start n => exact hlater rfl hrun
  | fromEnd n =>
    simp only [h.isPgzf, Bool.not_true, Bool.false_eq_true, if_false] at hrun
    obtain ⟨offset, mid, htarget, hrun⟩ := Program.of_bind_ok hrun
    exact hlater (offsetI64_of_ok htarget) hrun
  | current n =>
    obtain ⟨offset, mid, htarget, hrun⟩ := Program.of_bind_ok hrun
    exact hlater (offsetI64_of_ok htarget) hrun

def resolvedBlock (count : Nat) (i : Int) : Nat := if i < 0 then count - (-i).toNat else i.toNat

theorem seekBlock_of_ok {σ : Type} {i : Int} {offset : Nat} {s s' : σ}
    (hrun : index.seekBlock i s = .ok offset s') :
    s' = s ∧ resolvedBlock index.blockCount i < index.blockCount ∧
      index.compressedOffset (resolvedBlock index.blockCount i) = some offset := by
  rw [seekBlock] at hrun
  obtain ⟨actual, mid, hactual, hfound⟩ := Program.of_bind_ok hrun
  have hresolved : actual = resolvedBlock index.blockCount i ∧ mid = s := by
    rw [resolvedBlock]
    by_cases hneg : i < 0
    · rw [if_pos hneg] at hactual ⊢
      split at hactual
      · exact absurd hactual (by simp)
      · split at hactual
        · exact absurd hactual (by simp)
        · obtain ⟨rfl, rfl⟩ := EStateM.Result.ok.inj hactual
          exact ⟨rfl, rfl⟩
    · rw [if_neg hneg] at hactual ⊢
      obtain ⟨rfl, rfl⟩ := EStateM.Result.ok.inj hactual
      exact ⟨rfl, rfl⟩
  obtain ⟨rfl, rfl⟩ := hresolved
  by_cases hge : resolvedBlock index.blockCount i ≥ index.blocks.length
  · rw [if_pos hge, Program.throw_apply] at hfound
    exact absurd hfound (by simp)
  · rw [if_neg hge] at hfound
    cases hget : index.compressedOffsets[resolvedBlock index.blockCount i]? with
    | none =>
      simp only [hget, Program.throw_apply] at hfound
      exact absurd hfound (by simp)
    | some found =>
      simp only [hget] at hfound
      obtain ⟨rfl, rfl⟩ := EStateM.Result.ok.inj hfound
      exact ⟨rfl, Nat.not_le.mp hge, hget⟩

/-- `seek_to_block` resets the label, so it keeps
the two in step when it goes to the first block. -/
theorem Labelled.seekToBlock (hl : Laid D file index raws blocks)
    (h : Labelled file index raws blocks r) {i : Int}
    (hfirst : resolvedBlock index.blockCount i = 0) (hrun : seekToBlock i r = .ok () r') :
    Labelled file index raws blocks r' := by
  rw [PgzfReader.seekToBlock, Program.bind_ok (Program.get_apply _)] at hrun
  simp only [h.isPgzf, Bool.not_true, Bool.false_eq_true, if_false, h.index_eq] at hrun
  obtain ⟨offset, mid, hseek, hlater⟩ := Program.of_bind_ok hrun
  obtain ⟨hmid, -, hoffset⟩ := seekBlock_of_ok hseek
  subst hmid
  rw [hfirst] at hoffset
  obtain ⟨p, hin⟩ := h.inner
  rw [Program.bind_ok (onInner_seekStart hin offset), Program.modify_apply] at hlater
  obtain ⟨-, rfl⟩ := EStateM.Result.ok.inj hlater
  refine ⟨⟨offset, rfl⟩, h.isPgzf, by exact h.index_eq, h.readaheadSize, h.sound, fun _ => ?_⟩
  apply hl.inStep (Nat.zero_le _)
  simp only [hoffset, Option.getD_some]

theorem Labelled.readBlocks (hl : Laid D file index raws blocks)
    (h : Labelled file index raws blocks r) {start count : Nat} {out : Bytes}
    (hrun : readBlocks start count r = .ok out r') :
    Labelled file index raws blocks r' := by
  rw [PgzfReader.readBlocks, Program.bind_ok (Program.get_apply _)] at hrun
  simp only [h.isPgzf, Bool.not_true, Bool.false_eq_true, if_false, h.index_eq] at hrun
  by_cases hge : start ≥ index.blockCount
  · rw [if_pos hge, Program.throw_apply] at hrun
    exact absurd hrun (by simp)
  · rw [if_neg hge] at hrun
    rw [hl.described.blockCount, not_le] at hge
    obtain ⟨offset, hoffset⟩ := hl.described.compressedOffset_isSome (Nat.le_of_lt hge)
    obtain ⟨limit, mid, hadd, hlater⟩ := Program.of_bind_ok hrun
    obtain ⟨rfl, -⟩ := of_addU64_ok hadd
    by_cases hzero : min index.blockCount limit - start = 0
    · rw [if_pos hzero, Program.pure_apply] at hlater
      obtain ⟨-, rfl⟩ := EStateM.Result.ok.inj hlater
      exact h
    · obtain ⟨p, hin⟩ := h.inner
      simp only [if_neg hzero, hoffset] at hlater
      rw [Program.bind_ok (onInner_seekStart hin offset),
        Program.bind_ok (Program.modify_apply _ _), Program.bind_ok (Program.get_apply _)] at hlater
      obtain ⟨rawBatch, behind, hloop, hbehind⟩ := Program.of_bind_ok hlater
      have hstart : InStep file index raws blocks { mid with
          inner := ⟨file, offset, []⟩, nextBlockIndex := start } := by
        apply hl.inStep (Nat.le_of_lt hge)
        simp only [hoffset, Option.getD_some]
      obtain ⟨hstep, hsame⟩ := hstart.readBlocksLoop hl hloop
      obtain ⟨datas, last, hdatas, hend⟩ := Program.of_bind_ok hbehind
      obtain ⟨-, rfl⟩ := Prog.of_ofExcept_ok hdatas
      rw [Program.bind_ok (Program.modify_apply _ _), Program.pure_apply] at hend
      obtain ⟨-, rfl⟩ := EStateM.Result.ok.inj hend
      have hlast := h.of_same hsame hstep
      exact ⟨hlast.inner, hlast.isPgzf, hlast.index_eq, hlast.readaheadSize, hlast.sound,
        fun _ => hstep.congr rfl rfl⟩

end Pgzf
