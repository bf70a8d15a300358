import Pgzf.RawBlock

/-!
# The fields of a member

What the raw reader takes from the bytes at a place of a file: the length of the extra field and the
tags in it, the size `ZC` of the member, its deflate stream and its trailer. They say whether there
is a whole member, the end of the data, or a member that cannot be read.
-/

namespace Pgzf

open PgzfReader

variable {D : Deps} {file : Bytes} {p : Nat}

/-! ### The header -/

def xlenAt (file : Bytes) (p : Nat) : Nat :=
  (readU16Le ((file.drop (p + gzipFixedHeaderSize)).take 2)).toNat

def zcAt (file : Bytes) (p : Nat) : Nat :=
  (rawTags ((file.drop (p + gzipFixedHeaderSize + 2)).take (xlenAt file p))).zc.toNat

/-- At `p` there is the header of a member whose `ZC` is not zero and smaller than that header. -/
def ShortMember (file : Bytes) (p : Nat) : Prop :=
  p + gzipFixedHeaderSize + 2 + xlenAt file p ≤ file.length ∧ 0 < zcAt file p ∧
    zcAt file p < gzipFixedHeaderSize + 2 + xlenAt file p

instance (file : Bytes) (p : Nat) : Decidable (ShortMember file p) :=
  inferInstanceAs (Decidable (_ ∧ _))

def headerSizeAt (file : Bytes) (p : Nat) : Nat := gzipFixedHeaderSize + 2 + xlenAt file p

def HeaderThere (file : Bytes) (p : Nat) : Prop := p + headerSizeAt file p ≤ file.length

def extraAt (file : Bytes) (p : Nat) : Bytes :=
  (file.drop (p + gzipFixedHeaderSize + 2)).take (xlenAt file p)

def tagsAt (file : Bytes) (p : Nat) : RawTags := rawTags (extraAt file p)

/-! ### Behind the header -/

/-- The part of a member between header and trailer, and the trailer, for a header that ends at
`start` and a size `rest` of what follows it. -/
def streamAt (file : Bytes) (start rest : Nat) : Bytes :=
  (file.drop start).take (rest - pgzfTailSize)

def trailerAt (file : Bytes) (start rest : Nat) : Bytes :=
  (file.drop (start + (rest - pgzfTailSize))).take pgzfTailSize

/-- Decompression into a buffer of `capacity` bytes,
and the check of the CRC in front of the trailer. -/
def unpack (D : Deps) (stream trailer : Bytes) (capacity : Nat) : Option Bytes :=
  match decompressBlock D stream capacity with
  | .error _ => none
  | .ok output => if D.hash output = readU32Le (slice trailer 0 4) then some output else none

def isizeOf (trailer : Bytes) : Nat := (readU32Le (slice trailer 4 8)).toNat

theorem slice_take_drop (file : Bytes) (p : Nat) {size a b : Nat} (hb : b ≤ size) :
    slice ((file.drop p).take size) a b = (file.drop (p + a)).take (b - a) := by
  rw [slice, List.take_take, Nat.min_eq_left hb, List.drop_take, List.drop_drop]

theorem decompressRawBlockWith_toOption {zc size : Nat} (hsize : size ≤ zc)
    (hzc : p + zc ≤ file.length) :
    (decompressRawBlockWith D ((file.drop p).take zc) size).toOption =
      if zc - size < pgzfTailSize ∨ isizeOf (trailerAt file (p + size) (zc - size)) = 0 then some []
      else unpack D (streamAt file (p + size) (zc - size)) (trailerAt file (p + size) (zc - size))
        (isizeOf (trailerAt file (p + size) (zc - size))) := by
  have hlen : ((file.drop p).take zc).length = zc := by
    rw [List.length_take, List.length_drop]
    omega
  rw [decompressRawBlockWith]
  simp only [hlen]
  by_cases hsmall : zc < pgzfTailSize + size
  · rw [if_pos hsmall, if_pos (.inl (by omega))]
    rfl
  have hstart : p + size + (zc - size - pgzfTailSize) = p + (zc - pgzfTailSize) := by omega
  have hstream : slice ((file.drop p).take zc) size (zc - pgzfTailSize) = streamAt file (p + size)
      (zc - size) := by
    rw [slice_take_drop file p (Nat.sub_le _ _), streamAt, Nat.sub_right_comm]
  have htrailer : trailerAt file (p + size) (zc - size) =
      (file.drop (p + (zc - pgzfTailSize))).take pgzfTailSize := by
    rw [trailerAt, hstart]
  have htail : pgzfTailSize = 8 := rfl
  have hslice : ∀ a b, b ≤ 8 →
      slice ((file.drop p).take zc) (zc - pgzfTailSize + a) (zc - pgzfTailSize + b) =
      slice (trailerAt file (p + size) (zc - size)) a b := by
    intro a b hb
    rw [htrailer, slice_take_drop file p (by omega), slice_take_drop file _ (by omega),
      Nat.add_sub_add_left, ← Nat.add_assoc]
  have hcrc := hslice 0 4 (by omega)
  rw [Nat.add_zero] at hcrc
  rw [if_neg hsmall, hstream, hslice 4 8 (Nat.le_refl _), hcrc]
  generalize trailerAt file (p + size) (zc - size) = trailer
  rw [isizeOf]
  by_cases hisize : (readU32Le (slice trailer 4 8)).toNat = 0
  · rw [if_pos hisize, if_pos (.inr hisize)]
    rfl
  rw [if_neg hisize, if_neg (not_or.mpr ⟨by omega, hisize⟩), unpack]
  cases decompressBlock D (streamAt file (p + size) (zc - size))
      (readU32Le (slice trailer 4 8)).toNat with
  | error e => rfl
  | ok output =>
    simp only
    by_cases hhash : D.hash output = readU32Le (slice trailer 0 4)
    · rw [if_neg (not_not.mpr hhash), if_pos hhash]
      rfl
    · rw [if_pos hhash, if_neg hhash]
      rfl

/-! ### Members -/

theorem memberAt_there (hthere : HeaderThere file p) :
    memberAt file p =
      if zcAt file p = 0 then .ok none
      else if zcAt file p > 2 ^ 30 then
        .error
          (.error (.invalidFormat ("block size too large: " ++ toString (zcAt file p) ++ " bytes")))
      else if zcAt file p < headerSizeAt file p then
        .error (.panic "range end index out of range for slice")
      else if file.length - p < zcAt file p then .error (.error (.io .unexpectedEof))
      else .ok (some ((file.drop p).take (zcAt file p), headerSizeAt file p,
        (tagsAt file p).blockType)) := by
  have hroom := hthere
  rw [HeaderThere, headerSizeAt] at hroom
  have hzero : (tagsAt file p).zc = 0 ↔ zcAt file p = 0 := UInt32.toNat_inj.symm
  rw [memberAt, if_neg (by omega), if_neg (by omega)]
  have hextra : ¬ file.length - (p + gzipFixedHeaderSize + 2) < xlenAt file p := by omega
  exact (if_neg hextra).trans (if_congr hzero rfl rfl)

theorem memberAt_cut (hroom : gzipFixedHeaderSize ≤ file.length - p) (hcut : ¬ HeaderThere file p) :
    memberAt file p = .error (.error (.io .unexpectedEof)) := by
  rw [HeaderThere, headerSizeAt] at hcut
  rw [memberAt, if_neg (Nat.not_lt.mpr hroom)]
  by_cases hxlen : file.length - (p + gzipFixedHeaderSize) < 2
  · rw [if_pos hxlen]
  · rw [if_neg hxlen]
    have hextra : file.length - (p + gzipFixedHeaderSize + 2) < xlenAt file p := by omega
    exact if_pos hextra

/-- What the raw reader takes for the end: there is no room for a fixed header, or `ZC` is zero. -/
def EndsAt (file : Bytes) (p : Nat) : Prop :=
  file.length - p < gzipFixedHeaderSize ∨ HeaderThere file p ∧ zcAt file p = 0

/-- The header is cut off, or `ZC` is more than 1 GiB, or it leads out of the file. -/
def BrokenAt (file : Bytes) (p : Nat) : Prop :=
  gzipFixedHeaderSize ≤ file.length - p ∧ ¬ HeaderThere file p ∨
    HeaderThere file p ∧ (2 ^ 30 < zcAt file p ∨ headerSizeAt file p ≤ zcAt file p ∧
      file.length < p + zcAt file p)

def WholeAt (file : Bytes) (p : Nat) : Prop :=
  headerSizeAt file p ≤ zcAt file p ∧ zcAt file p ≤ 2 ^ 30 ∧ p + zcAt file p ≤ file.length

instance (file : Bytes) (p : Nat) : Decidable (HeaderThere file p) :=
  inferInstanceAs (Decidable (_ ≤ _))

instance (file : Bytes) (p : Nat) : Decidable (EndsAt file p) := inferInstanceAs (Decidable (_ ∨ _))

instance (file : Bytes) (p : Nat) : Decidable (WholeAt file p) :=
  inferInstanceAs (Decidable (_ ∧ _))

theorem headerSizeAt_lt (file : Bytes) (p : Nat) : headerSizeAt file p < 2 ^ 17 := by
  have hxlen : xlenAt file p < 2 ^ 16 := UInt16.toNat_lt _
  rw [headerSizeAt, gzipFixedHeaderSize]
  omega

theorem fixed_lt_headerSizeAt (file : Bytes) (p : Nat) :
    gzipFixedHeaderSize < headerSizeAt file p := by
  rw [headerSizeAt]
  omega

theorem ends_or_broken_or_short_or_whole (file : Bytes) (p : Nat) :
    EndsAt file p ∨ BrokenAt file p ∨ ShortMember file p ∨ WholeAt file p := by
  by_cases hroom : file.length - p < gzipFixedHeaderSize
  · exact .inl (.inl hroom)
  by_cases hthere : HeaderThere file p
  · rcases Nat.eq_zero_or_pos (zcAt file p) with hzero | hpos
    · exact .inl (.inr ⟨hthere, hzero⟩)
    by_cases hlarge : 2 ^ 30 < zcAt file p
    · exact .inr (.inl (.inr ⟨hthere, .inl hlarge⟩))
    by_cases hshort : zcAt file p < headerSizeAt file p
    · refine .inr (.inr (.inl ⟨?_, hpos, hshort⟩))
      rw [HeaderThere, headerSizeAt] at hthere
      omega
    by_cases hcut : file.length < p + zcAt file p
    · exact .inr (.inl (.inr ⟨hthere, .inr ⟨Nat.not_lt.mp hshort, hcut⟩⟩))
    · exact .inr (.inr (.inr ⟨Nat.not_lt.mp hshort, Nat.not_lt.mp hlarge, Nat.not_lt.mp hcut⟩))
  · exact .inr (.inl (.inl ⟨Nat.not_lt.mp hroom, hthere⟩))

theorem EndsAt.memberAt (h : EndsAt file p) : memberAt file p = .ok none := by
  rcases h with hroom | ⟨hthere, hzero⟩
  · rw [Pgzf.memberAt, if_pos hroom]
  · rw [memberAt_there hthere, if_pos hzero]

theorem BrokenAt.memberAt (h : BrokenAt file p) : ∃ e, memberAt file p = .error (.error e) := by
  rcases h with ⟨hroom, hcut⟩ | ⟨hthere, hlarge | ⟨hheader, hcut⟩⟩
  · exact ⟨_, memberAt_cut hroom hcut⟩
  · exact ⟨_, by rw [memberAt_there hthere, if_neg (by omega), if_pos hlarge]⟩
  · rw [memberAt_there hthere]
    have hfixed := fixed_lt_headerSizeAt file p
    rw [if_neg (by omega)]
    by_cases hlarge : zcAt file p > 2 ^ 30
    · exact ⟨_, if_pos hlarge⟩
    · rw [if_neg hlarge, if_neg (Nat.not_lt.mpr hheader), if_pos (by omega)]
      exact ⟨_, rfl⟩

theorem ShortMember.memberAt (h : ShortMember file p) :
    memberAt file p = .error (.panic "range end index out of range for slice") := by
  obtain ⟨hthere, hpos, hshort⟩ := h
  have hsize := headerSizeAt_lt file p
  rw [headerSizeAt] at hsize
  have hheader : HeaderThere file p := by
    rw [HeaderThere, headerSizeAt]
    omega
  rw [memberAt_there hheader, if_neg (by omega), if_neg (by omega)]
  exact if_pos hshort

theorem WholeAt.memberAt (h : WholeAt file p) :
    memberAt file p = .ok (some ((file.drop p).take (zcAt file p), headerSizeAt file p,
      (tagsAt file p).blockType)) := by
  have hfixed := fixed_lt_headerSizeAt file p
  obtain ⟨hheader, hlarge, hroom⟩ := h
  rw [memberAt_there ((Nat.add_le_add_left hheader p).trans hroom), if_neg (by omega),
    if_neg (by omega), if_neg (by omega), if_neg (by omega)]

theorem whole_of_memberAt {raw : Bytes} {headerSize : Nat} {ty : BlockType}
    (h : memberAt file p = .ok (some (raw, headerSize, ty))) :
    WholeAt file p ∧ raw = (file.drop p).take (zcAt file p) ∧ headerSize = headerSizeAt file p ∧
      ty = (tagsAt file p).blockType := by
  rcases ends_or_broken_or_short_or_whole file p with hend | hbroken | hshort | hwhole
  · exact absurd (hend.memberAt.symm.trans h) (by simp)
  · obtain ⟨e, hat⟩ := hbroken.memberAt
    exact absurd (hat.symm.trans h) (by simp)
  · exact absurd (hshort.memberAt.symm.trans h) (by simp)
  · obtain ⟨rfl, rfl, rfl⟩ : _ = raw ∧ _ = headerSize ∧ _ = ty := by
      simpa using hwhole.memberAt.symm.trans h
    exact ⟨hwhole, rfl, rfl, rfl⟩

theorem WholeAt.length_raw (h : WholeAt file p) :
    ((file.drop p).take (zcAt file p)).length = zcAt file p := by
  have hroom := h.2.2
  rw [List.length_take, List.length_drop]
  omega

variable (D file p) in
/-- The data of a whole member: none where there is no trailer or `ISIZE` is zero, and otherwise
what the stream inflates to, if the CRC is right. -/
def blockAt : Option Bytes :=
  let start := p + headerSizeAt file p
  let rest := zcAt file p - headerSizeAt file p
  let trailer := trailerAt file start rest
  if rest < pgzfTailSize ∨ isizeOf trailer = 0 then some []
  else unpack D (streamAt file start rest) trailer (isizeOf trailer)

theorem WholeAt.decompress (h : WholeAt file p) :
    (decompressRawBlockWith D ((file.drop p).take (zcAt file p)) (headerSizeAt file p)).toOption =
      blockAt D file p :=
  decompressRawBlockWith_toOption h.1 h.2.2

end Pgzf
