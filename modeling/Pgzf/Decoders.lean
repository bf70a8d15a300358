import Pgzf.Answers
import Pgzf.Stored

/-!
# The two decoders of a member

`read_pgzf_block` and `read_one_raw_block` with `decompress_raw_block_with` decode the same members,
with two tag loops and two ways to find the end of the header. Here is what each of them makes of
the bytes at a place of a file, whatever their extra field holds, and where the two agree.
-/

namespace Pgzf

open PgzfReader PgzfIndex Program

variable {D : Deps} {file : Bytes} {p : Nat}

/-! ### The fields of a member -/

structure MarkedAt (file : Bytes) (p : Nat) : Prop where
  le_length : p + gzipFixedHeaderSize ≤ file.length
  marked : ∃ flg xfl, validateGzipHeader ((file.drop p).take gzipFixedHeaderSize) = .ok (flg, xfl) ∧
    isPgzfMember flg xfl = true

def fieldAt (file : Bytes) (p : Nat) : ExtraField :=
  tlvLoop ExtraField.add (extraAt file p) (extraAt file p).length 0 ⟨0, none, none⟩

def ExtraField.blockType (field : ExtraField) : BlockType := determineBlockType field.gc field.ix

def ExtraField.headerSize (field : ExtraField) : Nat :=
  match field.blockType with
  | .beg => begHeaderSize
  | .dat => datHeaderSize
  | .idx => idxHeaderBaseSize + (field.ix.elim 0 fun entries => entries.length * 8)

/-- Two accumulators that stay related when a sub-field
is added are related at the end of the tag loop. -/
theorem tlvLoop_related {α β : Type} {R : α → β → Prop} {add : α → Bytes → Bytes → α}
    {add' : β → Bytes → Bytes → β}
    (hadd : ∀ a b tag data, R a b → R (add a tag data) (add' b tag data)) (extra : Bytes)
    (fuel off : Nat) {a : α} {b : β} (h : R a b) :
    R (tlvLoop add extra fuel off a) (tlvLoop add' extra fuel off b) := by
  induction fuel generalizing off a b with
  | zero => exact h
  | succ fuel ih =>
    rw [tlvLoop, tlvLoop]
    split
    · simp only
      split
      · exact h
      · exact ih _ (hadd _ _ _ _ h)
    · exact h

theorem ExtraField.zc_add (field : ExtraField) (tag data : Bytes) :
    (field.add tag data).zc = if tag = tagZc ∧ 4 ≤ data.length then readU32Le data
      else field.zc := by
  rw [ExtraField.add]
  split_ifs <;> rfl

theorem PgzfReader.RawTags.zc_add (tags : RawTags) (tag data : Bytes) :
    (tags.add tag data).zc = if tag = tagZc ∧ 4 ≤ data.length then readU32Le data else tags.zc := by
  have hfirst : readU32Le (slice data 0 4) = readU32Le data := by
    simp only [readU32Le, slice, List.drop_zero, List.take_take, Nat.min_self]
  rw [RawTags.add, hfirst]
  split_ifs <;> rfl

theorem zc_fieldAt (file : Bytes) (p : Nat) : (fieldAt file p).zc.toNat = zcAt file p := by
  have hadd : ∀ (field : ExtraField) (tags : RawTags) (tag data : Bytes), field.zc = tags.zc →
      (field.add tag data).zc = (tags.add tag data).zc := by
    intro field tags tag data h
    rw [ExtraField.zc_add, RawTags.zc_add, h]
  exact congrArg UInt32.toNat (tlvLoop_related hadd _ _ _ rfl)

/-! ### `read_pgzf_block` -/

/-- What a decoder does with a member: it fails, it reports the end, or it yields the data, the
type, `ZC` and the number of bytes it has consumed. -/
inductive Verdict where
  | fails
  | ends
  | yields (data : Bytes) (blockType : BlockType) (zc consumed : Nat)
  deriving DecidableEq, Repr

/-- The verdict of `read_pgzf_block`; a panic is none. -/
def sequentialVerdict (D : Deps) (file : Bytes) (p : Nat) : Option Verdict :=
  match readPgzfBlock D ⟨file, p, []⟩ with
  | .ok none _ => some .ends
  | .ok (some (data, blockType, zc)) s => some (.yields data blockType zc.toNat (s.pos - p))
  | .error (.error _) _ => some .fails
  | .error _ _ => none

/-- The data `read_pgzf_block` finds: the size of the header is that of the type. -/
def sequentialData (D : Deps) (file : Bytes) (p : Nat) : Option Bytes :=
  let field := fieldAt file p
  let start := p + headerSizeAt file p
  let rest := zcAt file p - field.headerSize
  if zcAt file p < field.headerSize + pgzfTailSize ∨ file.length < start + rest then
    none
  else if field.blockType = .idx then
    some []
  else
    unpack D (streamAt file start rest) (trailerAt file start rest)
      (max (isizeOf (trailerAt file start rest)) 1)

/-- The part of `read_pgzf_block` behind the header. -/
def readBody (D : Deps) (field : ExtraField) :
    Prog Source (Option (Bytes × BlockType × UInt32)) := do
  if field.zc.toNat < field.headerSize + pgzfTailSize then
    throw (.error (.invalidFormat "ZC too small"))
  else
    let deflateData ← Source.readExact (field.zc.toNat - (field.headerSize + pgzfTailSize))
    let trailer ← Source.readExact pgzfTailSize
    if field.blockType = .idx then
      return some ([], field.blockType, field.zc)
    else
      let output ← Prog.ofExcept (decompressBlock D deflateData (max (isizeOf trailer) 1))
      if D.hash output ≠ readU32Le (slice trailer 0 4) then
        throw (.error (.crcMismatch (readU32Le (slice trailer 0 4)) (D.hash output)))
      else
        return some (output, field.blockType, field.zc)

theorem readPgzfBlock_front (hmarked : MarkedAt file p) :
    readPgzfBlock D ⟨file, p, []⟩ = (do
      let xlenBuf ← Source.readExact 2
      let extra ← Source.readExact (readU16Le xlenBuf).toNat
      let field ← Prog.ofExcept (parseExtraField (xlenBuf ++ extra) true)
      readBody D field : Prog Source (Option (Bytes × BlockType × UInt32))) ⟨file,
        p + gzipFixedHeaderSize, []⟩ := by
  obtain ⟨flg, xfl, hvalid, hmember⟩ := hmarked.marked
  have hroom : gzipFixedHeaderSize ≤ file.length - p := by
    have := hmarked.le_length
    omega
  rw [readPgzfBlock, bind_ok (Prog.attempt_ok (Source.readExact_ok hroom))]
  simp only
  rw [hvalid, bind_ok (Prog.ofExcept_ok _ _)]
  simp only [hmember]
  rfl

theorem readPgzfBlock_there (hmarked : MarkedAt file p) (hthere : HeaderThere file p) :
    readPgzfBlock D ⟨file, p, []⟩ = readBody D (fieldAt file p) ⟨file,
      p + headerSizeAt file p, []⟩ := by
  rw [HeaderThere, headerSizeAt] at hthere
  have hxlen : 2 ≤ file.length - (p + gzipFixedHeaderSize) := by omega
  have hextra : xlenAt file p ≤ file.length - (p + gzipFixedHeaderSize + 2) := by omega
  have hxlenBuf : ((file.drop (p + gzipFixedHeaderSize)).take 2).length = 2 := by
    rw [List.length_take, List.length_drop]
    omega
  have hextraBuf : ((file.drop (p + gzipFixedHeaderSize + 2)).take (xlenAt file p)).length =
      xlenAt file p := by
    rw [List.length_take, List.length_drop]
    omega
  rw [readPgzfBlock_front hmarked, bind_ok (Source.readExact_ok hxlen),
    bind_ok (Source.readExact_ok (by exact hextra)),
    parseExtraField_split (List.append_nil _).symm hxlenBuf (by exact hextraBuf), if_pos rfl,
      bind_ok (Prog.ofExcept_ok _ _)]
  rw [headerSizeAt, ← Nat.add_assoc, ← Nat.add_assoc]
  rfl

/-- What has been decoded, with its type, its `ZC` and
the number of bytes consumed; nothing is a failure. -/
def Verdict.of (data : Option Bytes) (blockType : BlockType) (zc consumed : Nat) : Verdict :=
  data.elim .fails fun data => .yields data blockType zc consumed

/-- The verdict in terms of the fields. -/
theorem sequentialVerdict_eq (hmarked : MarkedAt file p) (hthere : HeaderThere file p) :
    sequentialVerdict D file p = some (.of (sequentialData D file p) (fieldAt file p).blockType
      (zcAt file p)
      (headerSizeAt file p + (zcAt file p - (fieldAt file p).headerSize))) := by
  rw [sequentialVerdict, readPgzfBlock_there hmarked hthere, sequentialData, readBody]
  have hzc := zc_fieldAt file p
  rw [HeaderThere] at hthere
  simp only [hzc]
  generalize hstart : p + headerSizeAt file p = start at hthere ⊢
  generalize hsize : (fieldAt file p).headerSize = size
  by_cases hsmall : zcAt file p < size + pgzfTailSize
  · rw [if_pos hsmall, if_pos (.inl hsmall)]
    rfl
  rw [if_neg hsmall]
  by_cases hcut : file.length < start + (zcAt file p - size)
  · rw [if_pos (.inr hcut)]
    by_cases hstream : zcAt file p - (size + pgzfTailSize) ≤ file.length - start
    · rw [bind_ok (Source.readExact_ok hstream), bind_error (Source.readExact_eof (by omega))]
      rfl
    · rw [bind_error (Source.readExact_eof (Nat.not_le.mp hstream))]
      rfl
  rw [if_neg (not_or.mpr ⟨hsmall, hcut⟩), bind_ok (Source.readExact_ok (by omega)),
    bind_ok (Source.readExact_ok (by omega))]
  have hrest : zcAt file p - (size + pgzfTailSize) = zcAt file p - size - pgzfTailSize :=
    Nat.sub_add_eq _ _ _
  have hend : start + (zcAt file p - size - pgzfTailSize) + pgzfTailSize - p =
      headerSizeAt file p + (zcAt file p - size) := by
    omega
  rw [hrest]
  by_cases hidx : (fieldAt file p).blockType = .idx
  · rw [if_pos hidx, if_pos hidx, pure_apply]
    simp only [hend, hzc]
    rfl
  rw [if_neg hidx, if_neg hidx, unpack, streamAt, trailerAt]
  generalize (file.drop (start + (zcAt file p - size - pgzfTailSize))).take pgzfTailSize = trailer
  cases decompressBlock D ((file.drop start).take (zcAt file p - size - pgzfTailSize))
      (max (isizeOf trailer) 1) with
  | error e => rfl
  | ok output =>
    rw [bind_ok (Prog.ofExcept_ok _ _)]
    by_cases hcrc : D.hash output = readU32Le (slice trailer 0 4)
    · simp only [hcrc, ne_eq, not_true, if_false, if_true, pure_apply, hend, hzc]
      rfl
    · simp only [hcrc, ne_eq, not_false_iff, if_false, if_true]
      rfl

theorem sequentialVerdict_cut (hmarked : MarkedAt file p) (hcut : ¬ HeaderThere file p) :
    sequentialVerdict D file p = some .fails := by
  have hle := hmarked.le_length
  rw [HeaderThere, headerSizeAt] at hcut
  rw [sequentialVerdict, readPgzfBlock_front hmarked]
  by_cases hxlen : 2 ≤ file.length - (p + gzipFixedHeaderSize)
  · rw [bind_ok (Source.readExact_ok hxlen)]
    have hextra : file.length - (p + gzipFixedHeaderSize + 2) < xlenAt file p := by omega
    rw [bind_error (Source.readExact_eof (by exact hextra))]
  · rw [bind_error (Source.readExact_eof (Nat.not_le.mp hxlen))]

/-! ### `read_one_raw_block` and `decompress_raw_block_with` -/

def rawBlockData (D : Deps) (block : RawBlock) : Except PgzfError Bytes :=
  if block.blockType = .idx then .ok [] else decompressRawBlockWith D block.raw block.headerSize

def rawVerdict (r : PgzfReader D) : Option Verdict :=
  match readOneRawBlock r with
  | .ok none _ => some .ends
  | .ok (some block) r' =>
    some (.of (rawBlockData D block).toOption block.blockType block.raw.length
      (r'.inner.pos - r.inner.pos))
  | .error (.error _) _ => some .fails
  | .error _ _ => none

/-- The data they find: the header ends where its extra field does. -/
def rawData (D : Deps) (file : Bytes) (p : Nat) : Option Bytes :=
  let start := p + headerSizeAt file p
  let rest := zcAt file p - headerSizeAt file p
  if file.length < start + rest then
    none
  else if (tagsAt file p).blockType = .idx ∨ rest < pgzfTailSize ∨
      isizeOf (trailerAt file start rest) = 0 then
    some []
  else
    unpack D (streamAt file start rest) (trailerAt file start rest)
      (isizeOf (trailerAt file start rest))

theorem rawVerdict_cut {r : PgzfReader D} (hin : r.inner = ⟨file, p, []⟩)
    (hmarked : MarkedAt file p) (hcut : ¬ HeaderThere file p) : rawVerdict r = some .fails := by
  have hle := hmarked.le_length
  have hat : memberAt file p = .error (.error (.io .unexpectedEof)) := by
    rw [HeaderThere, headerSizeAt] at hcut
    rw [memberAt, if_neg (by omega)]
    by_cases hxlen : file.length - (p + gzipFixedHeaderSize) < 2
    · rw [if_pos hxlen]
    · rw [if_neg hxlen]
      have hextra : file.length - (p + gzipFixedHeaderSize + 2) < xlenAt file p := by omega
      exact if_pos hextra
  have hread := readOneRawBlock_eq hin
  rw [hat] at hread
  obtain ⟨q, next, hread⟩ := hread
  rw [rawVerdict, hread]

theorem rawVerdict_there {r : PgzfReader D} (hin : r.inner = ⟨file, p, []⟩)
    (hmarked : MarkedAt file p) (hthere : HeaderThere file p) (hlimit : zcAt file p ≤ 2 ^ 30) :
    rawVerdict r =
      if zcAt file p = 0 then some .ends
      else if zcAt file p < headerSizeAt file p then none
      else some (.of (rawData D file p) (tagsAt file p).blockType (zcAt file p) (zcAt file p)) := by
  have hread := readOneRawBlock_eq hin
  rw [memberAt_there hthere] at hread
  rw [rawVerdict]
  by_cases hzero : zcAt file p = 0
  · rw [if_pos hzero] at hread ⊢
    obtain ⟨q, next, hread⟩ := hread
    rw [hread]
  rw [if_neg hzero, if_neg (Nat.not_lt.mpr hlimit)] at hread
  rw [if_neg hzero]
  by_cases hshort : zcAt file p < headerSizeAt file p
  · rw [if_pos hshort] at hread ⊢
    obtain ⟨q, next, hread⟩ := hread
    rw [hread]
  have hend : p + headerSizeAt file p + (zcAt file p - headerSizeAt file p) = p + zcAt file p := by
    omega
  rw [if_neg hshort] at hread ⊢
  rw [rawData]
  simp only [hend]
  by_cases hcut : file.length - p < zcAt file p
  · rw [if_pos hcut] at hread
    rw [if_pos (by omega)]
    obtain ⟨q, next, hread⟩ := hread
    rw [hread]
    rfl
  rw [if_neg hcut] at hread
  rw [if_neg (by omega)]
  simp only at hread
  have hlen : ((file.drop p).take (zcAt file p)).length = zcAt file p := by
    rw [List.length_take, List.length_drop]
    omega
  have hpos : p + zcAt file p - r.inner.pos = zcAt file p := by
    rw [hin]
    exact Nat.add_sub_cancel_left _ _
  rw [hread]
  simp only [hlen, hpos, rawBlockData]
  by_cases hidx : (tagsAt file p).blockType = .idx
  · rw [if_pos hidx, if_pos (.inl hidx)]
    rfl
  · have hdata := decompressRawBlockWith_toOption (D := D) (Nat.not_lt.mp hshort)
        (show p + zcAt file p ≤ file.length by
      have := hmarked.le_length
      omega)
    rw [if_neg hidx, hdata]
    simp only [hidx, false_or]

/-! ### Where they agree -/

def DecodersAgree (D : Deps) (file : Bytes) (p : Nat) (r : PgzfReader D) : Prop :=
  ∃ verdict, sequentialVerdict D file p = some verdict ∧ rawVerdict r = some verdict

/-- The size and the type of the header, as `read_pgzf_block` takes them from the sub-fields it
knows, are those of the raw reader. -/
def SameHeader (file : Bytes) (p : Nat) : Prop :=
  (fieldAt file p).headerSize = headerSizeAt file p ∧
    (fieldAt file p).blockType = (tagsAt file p).blockType

/-- Too short, cut off or damaged behind the header that `read_pgzf_block` takes. -/
def SequentialBroken (D : Deps) (file : Bytes) (p : Nat) : Prop :=
  let start := p + headerSizeAt file p
  let rest := zcAt file p - (fieldAt file p).headerSize
  let trailer := trailerAt file start rest
  zcAt file p < (fieldAt file p).headerSize + pgzfTailSize ∨ file.length < start + rest ∨
    (fieldAt file p).blockType ≠ .idx ∧
      unpack D (streamAt file start rest) trailer (max (isizeOf trailer) 1) = none

/-- Cut off or damaged behind the header that the raw reader takes. -/
def RawBroken (D : Deps) (file : Bytes) (p : Nat) : Prop :=
  let start := p + headerSizeAt file p
  let rest := zcAt file p - headerSizeAt file p
  let trailer := trailerAt file start rest
  file.length < start + rest ∨ (tagsAt file p).blockType ≠ .idx ∧ pgzfTailSize ≤ rest ∧
    isizeOf trailer ≠ 0 ∧ unpack D (streamAt file start rest) trailer (isizeOf trailer) = none

/-- With a header that both take the same way: a member that is not cut off has a trailer, and with
an `ISIZE` of zero its stream is that of no data. -/
def EmptyTaken (D : Deps) (file : Bytes) (p : Nat) : Prop :=
  let start := p + headerSizeAt file p
  let rest := zcAt file p - headerSizeAt file p
  let trailer := trailerAt file start rest
  start + rest ≤ file.length → pgzfTailSize ≤ rest ∧
    ((tagsAt file p).blockType ≠ .idx → isizeOf trailer = 0 →
      unpack D (streamAt file start rest) trailer 1 = some [])

def DecodersMeet (D : Deps) (file : Bytes) (p : Nat) : Prop :=
  HeaderThere file p → zcAt file p ≠ 0 ∧ headerSizeAt file p ≤ zcAt file p ∧
    (SameHeader file p → EmptyTaken D file p) ∧
    (¬ SameHeader file p → SequentialBroken D file p ∧ RawBroken D file p)

theorem sequentialData_eq_none : sequentialData D file p = none ↔ SequentialBroken D file p := by
  rw [sequentialData, SequentialBroken]
  by_cases hcut : zcAt file p < (fieldAt file p).headerSize + pgzfTailSize ∨
      file.length < p + headerSizeAt file p + (zcAt file p - (fieldAt file p).headerSize)
  · rw [if_pos hcut]
    exact iff_of_true rfl (hcut.elim .inl fun h => .inr (.inl h))
  rw [if_neg hcut]
  obtain ⟨hsmall, hshort⟩ := not_or.mp hcut
  simp only [hsmall, hshort, false_or]
  by_cases hidx : (fieldAt file p).blockType = .idx
  · simp only [hidx, if_true, ne_eq, not_true, false_and, reduceCtorEq]
  · simp only [hidx, if_false, ne_eq, not_false_iff, true_and]

theorem rawData_eq_none : rawData D file p = none ↔ RawBroken D file p := by
  rw [rawData, RawBroken]
  by_cases hcut : file.length < p + headerSizeAt file p + (zcAt file p - headerSizeAt file p)
  · rw [if_pos hcut]
    exact iff_of_true rfl (.inl hcut)
  rw [if_neg hcut]
  simp only [hcut, false_or]
  by_cases hempty : (tagsAt file p).blockType = .idx ∨
    zcAt file p - headerSizeAt file p < pgzfTailSize ∨
      isizeOf (trailerAt file (p + headerSizeAt file p) (zcAt file p - headerSizeAt file p)) = 0
  · rw [if_pos hempty]
    refine iff_of_false (by simp) fun ⟨hidx, hrest, hisize, _⟩ => ?_
    rcases hempty with h | h | h
    · exact hidx h
    · exact Nat.not_lt.mpr hrest h
    · exact hisize h
  · rw [if_neg hempty]
    obtain ⟨hidx, hempty⟩ := not_or.mp hempty
    obtain ⟨hrest, hisize⟩ := not_or.mp hempty
    simp only [hidx, hisize, Nat.not_lt.mp hrest, ne_eq, not_false_iff, true_and]

theorem Verdict.of_eq_of {data data' : Option Bytes} {ty ty' : BlockType}
    {zc consumed consumed' : Nat} :
    Verdict.of data ty zc consumed = .of data' ty' zc consumed' ↔
      data = data' ∧ (data ≠ none → ty = ty' ∧ consumed = consumed') := by
  cases data <;> cases data' <;> simp [Verdict.of]

/-- With a header that both take the same way, the data is the same but for a missing trailer and an
`ISIZE` of zero. -/
theorem sequentialData_eq_rawData (hsame : SameHeader file p) :
    sequentialData D file p = rawData D file p ↔ EmptyTaken D file p := by
  obtain ⟨hsize, htype⟩ := hsame
  have htail : 0 < pgzfTailSize := by decide
  rw [sequentialData, rawData, EmptyTaken]
  simp only [hsize, htype]
  generalize hrest : zcAt file p - headerSizeAt file p = rest
  by_cases hcut : file.length < p + headerSizeAt file p + rest
  · rw [if_pos (.inr hcut), if_pos hcut]
    exact iff_of_true rfl fun h => absurd hcut (Nat.not_lt.mpr h)
  have hroom := Nat.not_lt.mp hcut
  rw [if_neg hcut]
  by_cases hsmall : rest < pgzfTailSize
  · rw [if_pos (.inl (by omega)), if_pos (.inr (.inl hsmall))]
    exact iff_of_false (by simp) fun h => Nat.not_le.mpr hsmall (h hroom).1
  rw [if_neg (by omega)]
  by_cases hidx : (tagsAt file p).blockType = .idx
  · rw [if_pos hidx, if_pos (.inl hidx)]
    exact iff_of_true rfl fun _ => ⟨Nat.not_lt.mp hsmall, fun h => absurd hidx h⟩
  rw [if_neg hidx]
  generalize trailerAt file (p + headerSizeAt file p) rest = trailer
  by_cases hisize : isizeOf trailer = 0
  · rw [if_pos (.inr (.inr hisize)), hisize]
    exact ⟨fun h _ => ⟨Nat.not_lt.mp hsmall, fun _ _ => h⟩, fun h => (h hroom).2 hidx rfl⟩
  · rw [if_neg (not_or.mpr ⟨hidx, not_or.mpr ⟨hsmall, hisize⟩⟩),
      Nat.max_eq_left (Nat.pos_of_ne_zero hisize)]
    exact iff_of_true rfl fun _ => ⟨Nat.not_lt.mp hsmall, fun _ h => absurd h hisize⟩

/-- Headers taken in different ways agree in their
failures only: the raw reader consumes `ZC` bytes. -/
theorem verdicts_of_other_header (hother : ¬ SameHeader file p) :
    Verdict.of (sequentialData D file p) (fieldAt file p).blockType (zcAt file p)
        (headerSizeAt file p + (zcAt file p - (fieldAt file p).headerSize)) =
      .of (rawData D file p) (tagsAt file p).blockType (zcAt file p) (zcAt file p) ↔
      SequentialBroken D file p ∧ RawBroken D file p := by
  rw [Verdict.of_eq_of, ← sequentialData_eq_none, ← rawData_eq_none]
  constructor
  · rintro ⟨hdata, hyields⟩
    have hnone : sequentialData D file p = none := by
      by_contra hsome
      obtain ⟨htype, hconsumed⟩ := hyields hsome
      have hlong : ¬ zcAt file p < (fieldAt file p).headerSize + pgzfTailSize := fun h =>
        hsome (sequentialData_eq_none.mpr (.inl h))
      exact hother ⟨by omega, htype⟩
    exact ⟨hnone, hdata ▸ hnone⟩
  · rintro ⟨hsequential, hraw⟩
    exact ⟨hsequential.trans hraw.symm, fun h => absurd hsequential h⟩

/-- The decoders agree on a marked member exactly where they meet. -/
theorem decoders_agree_iff (r : PgzfReader D) (hin : r.inner = ⟨file, p, []⟩)
    (hmarked : MarkedAt file p) (hlimit : HeaderThere file p → zcAt file p ≤ 2 ^ 30) :
    DecodersAgree D file p r ↔ DecodersMeet D file p := by
  by_cases hthere : HeaderThere file p
  · have hsequential := sequentialVerdict_eq (D := D) hmarked hthere
    have hraw := rawVerdict_there hin hmarked hthere (hlimit hthere)
    have hagree : DecodersAgree D file p r ↔ sequentialVerdict D file p = rawVerdict r := by
      rw [DecodersAgree, hsequential]
      exact ⟨fun ⟨_, h, h'⟩ => h.trans h'.symm, fun h => ⟨_, rfl, h.symm⟩⟩
    rw [hagree, hsequential, hraw, DecodersMeet, imp_iff_right hthere]
    by_cases hzero : zcAt file p = 0
    · rw [if_pos hzero]
      refine iff_of_false (fun h => ?_) fun h => h.1 hzero
      cases hdata : sequentialData D file p <;> simp [hdata, Verdict.of] at h
    rw [if_neg hzero]
    by_cases hshort : zcAt file p < headerSizeAt file p
    · rw [if_pos hshort]
      exact iff_of_false (by simp) fun h => Nat.not_lt.mpr h.2.1 hshort
    have hfit := Nat.not_lt.mp hshort
    rw [if_neg hshort, Option.some_inj, and_iff_right hzero, and_iff_right hfit]
    by_cases hsame : SameHeader file p
    · have hconsumed : headerSizeAt file p + (zcAt file p - (fieldAt file p).headerSize) =
          zcAt file p := by
        rw [hsame.1]
        omega
      rw [hconsumed, Verdict.of_eq_of, sequentialData_eq_rawData hsame]
      exact ⟨fun h => ⟨fun _ => h.1, fun h => absurd hsame h⟩,
        fun h => ⟨h.1 hsame, fun _ => ⟨hsame.2, rfl⟩⟩⟩
    · rw [verdicts_of_other_header hsame]
      exact ⟨fun h => ⟨fun h => absurd h hsame, fun _ => h⟩, fun h => h.2 hsame⟩
  · apply iff_of_true ⟨.fails, sequentialVerdict_cut hmarked hthere,
      rawVerdict_cut hin hmarked hthere⟩
    exact fun h => absurd h hthere

namespace Stored

def plainMember : Bytes := begHeader 46 0 ++ stream [65] ++ u32Bytes (hash [65]) ++ u32Bytes 1

def extraMember : Bytes :=
  memberHeader (subField tagZc (u32Bytes 50) ++ subField tagGc (u64Bytes 0) ++
    subField [88, 88] []) ++ stream [65] ++ u32Bytes (hash [65]) ++ u32Bytes 1

def noGroups : PgzfIndex := ⟨[], [0], [0], 0⟩

end Stored

theorem decoders_agree_sample : DecodersAgree Stored.deps Stored.plainMember 0
    (fresh Stored.deps Stored.plainMember Stored.noGroups) := by
  apply (decoders_agree_iff _ rfl ⟨by decide +kernel, gzipFlgFextra,
    pgzfXflMarker, by decide +kernel, by decide⟩ (fun _ => by decide +kernel)).mpr
  intro _
  refine ⟨by decide +kernel, by decide +kernel, fun _ => ?_, fun h => absurd ?_ h⟩
  · exact fun _ => ⟨by decide +kernel, fun _ h => absurd h (by decide +kernel)⟩
  · exact ⟨by decide +kernel, by decide +kernel⟩

/-- The sub-field makes `read_pgzf_block` read past the member. -/
theorem decoders_differ :
    (∃ s, new Stored.deps ⟨Stored.extraMember, 0, []⟩ =
      .ok (fresh Stored.deps Stored.extraMember Stored.noGroups) s) ∧
      MarkedAt Stored.extraMember 0 ∧ zcAt Stored.extraMember 0 ≤ 2 ^ 30 ∧
      sequentialVerdict Stored.deps Stored.extraMember 0 = some .fails ∧
      rawVerdict (fresh Stored.deps Stored.extraMember Stored.noGroups) =
        some (.yields [65] .beg 50 50) ∧
      ¬ DecodersAgree Stored.deps Stored.extraMember 0
        (fresh Stored.deps Stored.extraMember Stored.noGroups) := by
  have hbuild : outcome (build ⟨Stored.extraMember, 0, []⟩) = .ok Stored.noGroups := by
    decide +kernel
  have hmarked : MarkedAt Stored.extraMember 0 :=
    ⟨by decide +kernel, gzipFlgFextra, pgzfXflMarker, by decide +kernel, by decide⟩
  have hsequential : sequentialVerdict Stored.deps Stored.extraMember 0 = some .fails := by
    decide +kernel
  have hraw : rawVerdict (fresh Stored.deps Stored.extraMember Stored.noGroups) =
      some (.yields [65] .beg 50 50) := by
    decide +kernel
  refine ⟨⟨_, new_eq (by decide +kernel) (build_of_outcome hbuild) 0⟩, hmarked, by decide +kernel,
    hsequential, hraw, ?_⟩
  rintro ⟨verdict, hfirst, hsecond⟩
  rw [hsequential, Option.some_inj] at hfirst
  rw [hraw, Option.some_inj] at hsecond
  exact absurd (hfirst.trans hsecond.symm) (by simp)

end Pgzf
