import Pgzf.Layout
import Pgzf.Reader

/-!
# Reading the headers back

What the parsers of the crate find in a header of the layout. The tag loop is treated once, for any
list of sub-fields that fit their 16-bit lengths: it adds them to its accumulator one after another.
-/

namespace Pgzf

/-! ### Slices and integers -/

theorem slice_middle (front piece rest : Bytes) {from' to' : Nat} (hfrom : from' = front.length)
    (hto : to' = front.length + piece.length) :
    slice (front ++ piece ++ rest) from' to' = piece := by
  subst hfrom hto
  rw [slice, ← List.length_append, List.take_left, List.drop_left]

theorem slice_front (piece rest : Bytes) {to' : Nat} (hto : to' = piece.length) :
    slice (piece ++ rest) 0 to' = piece := by
  subst hto
  rw [slice, List.take_left, List.drop_zero]

@[simp] theorem readU16Le_u16Bytes (v : UInt16) (rest : Bytes) :
    readU16Le (u16Bytes v ++ rest) = v := by
  have htake : (u16Bytes v ++ rest).take 2 = u16Bytes v := List.take_left' (length_u16Bytes v)
  rw [readU16Le, htake, u16Bytes, LittleEndian.decode_encode_of_lt v.toNat_lt, UInt16.ofNat_toNat]

@[simp] theorem readU32Le_u32Bytes (v : UInt32) (rest : Bytes) :
    readU32Le (u32Bytes v ++ rest) = v := by
  have htake : (u32Bytes v ++ rest).take 4 = u32Bytes v := List.take_left' (length_u32Bytes v)
  rw [readU32Le, htake, u32Bytes, LittleEndian.decode_encode_of_lt v.toNat_lt, UInt32.ofNat_toNat]

@[simp] theorem readU64Le_u64Bytes (v : UInt64) (rest : Bytes) :
    readU64Le (u64Bytes v ++ rest) = v := by
  have htake : (u64Bytes v ++ rest).take 8 = u64Bytes v := List.take_left' (length_u64Bytes v)
  rw [readU64Le, htake, u64Bytes, LittleEndian.decode_encode_of_lt v.toNat_lt, UInt64.ofNat_toNat]

theorem readU16Le_self (v : UInt16) : readU16Le (u16Bytes v) = v := by
  simpa using readU16Le_u16Bytes v []

theorem readU32Le_self (v : UInt32) : readU32Le (u32Bytes v) = v := by
  simpa using readU32Le_u32Bytes v []

theorem readU64Le_self (v : UInt64) : readU64Le (u64Bytes v) = v := by
  simpa using readU64Le_u64Bytes v []

/-! ### The tag loop -/

section TagLoop

variable {α : Type} {add : α → Bytes → Bytes → α}

theorem tlvLoop_cons (front tag value rest : Bytes) (fuel : Nat) (acc : α) (htag : tag.length = 2)
    (hvalue : value.length < 2 ^ 16) :
    tlvLoop add (front ++ subField tag value ++ rest) (fuel + 1) front.length acc =
      tlvLoop add (front ++ subField tag value ++ rest) fuel (front ++ subField tag value).length
        (add acc tag value) := by
  have hlen : (front ++ subField tag value ++ rest).length = front.length + 4 + value.length +
      rest.length := by
    simp only [List.length_append, length_subField, htag]
    omega
  have hslen : (UInt16.ofNat value.length).toNat = value.length := UInt16.toNat_ofNat_of_lt' hvalue
  have hsplit : front ++ subField tag value ++ rest =
      front ++ tag ++ u16Bytes (UInt16.ofNat value.length) ++ value ++ rest := by
    simp only [subField, List.append_assoc]
  have htagSlice : slice (front ++ subField tag value ++ rest) front.length
      (front.length + 2) = tag := by
    rw [hsplit, List.append_assoc _ value, List.append_assoc _ (u16Bytes _)]
    exact slice_middle _ _ _ rfl (by rw [htag])
  have hlenSlice : slice (front ++ subField tag value ++ rest) (front.length + 2)
      (front.length + 4) = u16Bytes (UInt16.ofNat value.length) := by
    rw [hsplit, List.append_assoc _ value]
    exact slice_middle _ _ _ (by rw [List.length_append, htag])
      (by rw [List.length_append, length_u16Bytes, htag])
  have hvalueSlice : slice (front ++ subField tag value ++ rest) (front.length + 4)
      (front.length + 4 + value.length) = value := by
    rw [hsplit]
    exact slice_middle _ _ _ (by simp only [List.length_append, length_u16Bytes, htag])
      (by simp only [List.length_append, length_u16Bytes, htag])
  have hnext : (front ++ subField tag value).length = front.length + 4 + value.length := by
    rw [List.length_append, length_subField, htag]
    omega
  have hroom : front.length + 4 ≤ (front ++ subField tag value ++ rest).length := by omega
  have hfits : ¬ front.length + 4 + value.length >
      (front ++ subField tag value ++ rest).length := by omega
  simp only [tlvLoop, if_pos hroom, hlenSlice, readU16Le_self, hslen, htagSlice, if_neg hfits,
    hvalueSlice, hnext]

theorem tlvLoop_eq_foldl (fields : List (Bytes × Bytes)) (front : Bytes) (fuel : Nat) (acc : α)
    (hfields : ∀ f ∈ fields, f.1.length = 2 ∧ f.2.length < 2 ^ 16) (hfuel : fields.length ≤ fuel) :
    tlvLoop add (front ++ fields.flatMap fun f => subField f.1 f.2) fuel front.length acc =
      fields.foldl (fun acc f => add acc f.1 f.2) acc := by
  induction fields generalizing front fuel acc with
  | nil =>
    cases fuel with
    | zero => rfl
    | succ fuel =>
      have hend : ¬ front.length + 4 ≤ (front ++ [].flatMap fun f : Bytes × Bytes =>
          subField f.1 f.2).length := by
        simp
      rw [tlvLoop, if_neg hend, List.foldl_nil]
  | cons field rest ih =>
    obtain ⟨fuel, rfl⟩ : ∃ m, fuel = m + 1 := ⟨fuel - 1, by rw [List.length_cons] at hfuel; omega⟩
    obtain ⟨htag, hvalue⟩ := hfields field List.mem_cons_self
    rw [List.flatMap_cons, ← List.append_assoc, tlvLoop_cons front _ _ _ fuel acc htag hvalue,
      ih _ fuel _ (fun f hf => hfields f (List.mem_cons_of_mem _ hf)) (by simpa using hfuel),
        List.foldl_cons]

theorem tlvLoop_subFields (add : α → Bytes → Bytes → α) (fields : List (Bytes × Bytes)) (acc : α)
    (hfields : ∀ f ∈ fields, f.1.length = 2 ∧ f.2.length < 2 ^ 16) :
    tlvLoop add (fields.flatMap fun f => subField f.1 f.2) (fields.flatMap fun f =>
      subField f.1 f.2).length 0 acc =
      fields.foldl (fun acc f => add acc f.1 f.2) acc := by
  have hfuel : fields.length ≤ (fields.flatMap fun f => subField f.1 f.2).length := by
    clear hfields
    induction fields with
    | nil => exact Nat.le_refl _
    | cons field rest ih =>
      rw [List.flatMap_cons, List.length_append, length_subField, List.length_cons]
      omega
  exact tlvLoop_eq_foldl fields [] _ acc hfields hfuel

end TagLoop

/-! ### The tags of the three headers -/

section Tags

open PgzfReader

theorem rawTags_zc (zc : UInt32) : rawTags (subField tagZc (u32Bytes zc)) = ⟨zc, false, false⟩ := by
  have hloop := tlvLoop_subFields RawTags.add [(tagZc, u32Bytes zc)] ⟨0, false, false⟩ (by simp)
  have hslice : slice (u32Bytes zc) 0 4 = u32Bytes zc := by
    simpa using slice_front (u32Bytes zc) [] (length_u32Bytes zc).symm
  simp only [List.flatMap_cons, List.flatMap_nil, List.append_nil, List.foldl_cons,
    List.foldl_nil] at hloop
  rw [rawTags, hloop, RawTags.add, if_pos ⟨rfl, by simp⟩, hslice, readU32Le_self]

theorem rawTags_zc_cons (zc : UInt32) {tag value : Bytes} (htag : tag.length = 2)
    (hvalue : value.length < 2 ^ 16) :
    rawTags (subField tagZc (u32Bytes zc) ++ subField tag value) = RawTags.add ⟨zc, false,
      false⟩ tag value := by
  have hloop := tlvLoop_subFields RawTags.add [(tagZc, u32Bytes zc), (tag, value)] ⟨0, false, false⟩
    (by simpa [htag] using hvalue)
  have hslice : slice (u32Bytes zc) 0 4 = u32Bytes zc := by
    simpa using slice_front (u32Bytes zc) [] (length_u32Bytes zc).symm
  have hfirst : RawTags.add ⟨0, false, false⟩ tagZc (u32Bytes zc) = ⟨zc, false, false⟩ := by
    rw [RawTags.add, if_pos ⟨rfl, by simp⟩, hslice, readU32Le_self]
  simp only [List.flatMap_cons, List.flatMap_nil, List.append_nil, List.foldl_cons, List.foldl_nil,
    hfirst] at hloop
  rw [rawTags, hloop]

theorem rawTags_beg (zc : UInt32) (gc : UInt64) :
    rawTags (subField tagZc (u32Bytes zc) ++ subField tagGc (u64Bytes gc)) = ⟨zc, true, false⟩ := by
  have hne : ¬ (tagGc = tagZc ∧ 4 ≤ (u64Bytes gc).length) := fun h => absurd h.1 (by decide)
  rw [rawTags_zc_cons zc rfl (by simp), RawTags.add, if_neg hne, if_pos rfl]

theorem rawTags_idx (zc : UInt32) {entries : List IndexEntry} (h : 8 * entries.length < 2 ^ 16) :
    rawTags (subField tagZc (u32Bytes zc) ++ subField tagIx (entries.flatMap entryBytes)) = ⟨zc,
      false, true⟩ := by
  have hne : ¬ (tagIx = tagZc ∧ 4 ≤ (entries.flatMap entryBytes).length) :=
    fun h => absurd h.1 (by decide)
  rw [rawTags_zc_cons zc rfl (by rwa [length_flatMap_entryBytes]), RawTags.add, if_neg hne,
    if_neg (by decide), if_pos rfl]

end Tags

/-! ### Validation -/

theorem validateGzipHeader_base (rest : Bytes) :
    validateGzipHeader (gzipBase ++ rest) = .ok (gzipFlgFextra, pgzfXflMarker) := by
  have hlen : ¬ (gzipBase ++ rest).length < gzipFixedHeaderSize := by
    rw [List.length_append]
    exact Nat.not_lt.mpr (Nat.le_add_right 10 rest.length)
  rw [validateGzipHeader, if_neg hlen]
  rfl

theorem isPgzfMember_marker : isPgzfMember gzipFlgFextra pgzfXflMarker = true := rfl

/-! ### Index tables -/

theorem entryAt_entryBytes (front : Bytes) (entry : IndexEntry) (rest : Bytes) {off : Nat}
    (hoff : off = front.length) : entryAt (front ++ entryBytes entry ++ rest) off = entry := by
  have hfirst : slice (front ++ entryBytes entry ++ rest) off (off + 4) =
      u32Bytes entry.compressedSize := by
    rw [entryBytes, ← List.append_assoc, List.append_assoc _ _ rest]
    exact slice_middle _ _ _ hoff (by rw [hoff, length_u32Bytes])
  have hsecond : slice (front ++ entryBytes entry ++ rest) (off + 4) (off + 8) =
      u32Bytes entry.uncompressedSize := by
    rw [entryBytes, ← List.append_assoc]
    exact slice_middle _ _ _ (by rw [List.length_append, length_u32Bytes, hoff])
      (by rw [List.length_append, length_u32Bytes, length_u32Bytes, hoff])
  rw [entryAt, hfirst, hsecond, readU32Le_self, readU32Le_self]

theorem entryAt_flatMap {entries : List IndexEntry} {i : Nat} (hi : i < entries.length) :
    entryAt (entries.flatMap entryBytes) (i * 8) = entries[i] := by
  have hsplit : entries.flatMap entryBytes =
      (entries.take i).flatMap entryBytes ++ entryBytes entries[i] ++
          (entries.drop (i + 1)).flatMap entryBytes := by
    conv_lhs => rw [← List.take_append_drop i entries, List.drop_eq_getElem_cons hi]
    rw [List.flatMap_append, List.flatMap_cons, List.append_assoc]
  rw [hsplit]
  apply entryAt_entryBytes _ _ _
  rw [length_flatMap_entryBytes, List.length_take]
  omega

theorem parseEntries_flatMap (entries : List IndexEntry) :
    parseEntries (entries.flatMap entryBytes) = entries := by
  rw [parseEntries, count_flatMap_entryBytes]
  apply List.ext_getElem
  · rw [List.length_map, List.length_range]
  · intro i hi hi'
    rw [List.getElem_map, List.getElem_range, entryAt_flatMap hi']

/-! ### The extra fields of the three headers -/

section ExtraFields

/-- The extra field, whatever stands behind it. Without the marker it is not searched. -/
theorem parseExtraField_split {buf xlenBuf extra rest : Bytes}
    (hbuf : buf = xlenBuf ++ extra ++ rest) (hxlen : xlenBuf.length = 2)
    (hextra : extra.length = (readU16Le xlenBuf).toNat) (isPgzf : Bool) :
    parseExtraField buf isPgzf =
      .ok (if isPgzf then tlvLoop ExtraField.add extra extra.length 0 ⟨0, none, none⟩ else ⟨0, none,
        none⟩) := by
  have hread : readU16Le buf = readU16Le xlenBuf := by
    rw [hbuf, readU16Le, readU16Le, List.append_assoc, List.take_left' hxlen,
      List.take_of_length_le (Nat.le_of_eq hxlen)]
  have hlen : buf.length = 2 + extra.length + rest.length := by
    rw [hbuf, List.length_append, List.length_append, hxlen]
  have hslice : slice buf 2 (2 + extra.length) = extra := by
    rw [hbuf]
    exact slice_middle _ _ _ hxlen.symm (by rw [hxlen])
  simp only [parseExtraField, hread, ← hextra, hlen, hslice]
  rw [if_neg (by omega), if_neg (by omega)]
  cases isPgzf <;> rfl

theorem parseExtraField_eq {extra : Bytes} (hextra : extra.length < 2 ^ 16) (rest : Bytes) :
    parseExtraField (u16Bytes (UInt16.ofNat extra.length) ++ extra ++ rest) true =
      .ok (tlvLoop ExtraField.add extra extra.length 0 ⟨0, none, none⟩) := by
  have hxlen : (UInt16.ofNat extra.length).toNat = extra.length := UInt16.toNat_ofNat_of_lt' hextra
  exact parseExtraField_split rfl (length_u16Bytes _) (by rw [readU16Le_self, hxlen]) true

theorem add_zc (zc : UInt32) :
    ExtraField.add ⟨0, none, none⟩ tagZc (u32Bytes zc) = ⟨zc, none, none⟩ := by
  rw [ExtraField.add, if_pos ⟨rfl, by simp⟩, readU32Le_self]

theorem extraField_zc (zc : UInt32) :
    tlvLoop ExtraField.add (subField tagZc (u32Bytes zc)) (subField tagZc (u32Bytes zc)).length 0
      ⟨0, none, none⟩ =
      ⟨zc, none, none⟩ := by
  have hloop := tlvLoop_subFields ExtraField.add [(tagZc, u32Bytes zc)] ⟨0, none, none⟩ (by simp)
  simp only [List.flatMap_cons, List.flatMap_nil, List.append_nil, List.foldl_cons,
    List.foldl_nil] at hloop
  rw [hloop, add_zc]

theorem extraField_zc_cons (zc : UInt32) {tag value : Bytes} (htag : tag.length = 2)
    (hvalue : value.length < 2 ^ 16) :
    tlvLoop ExtraField.add (subField tagZc (u32Bytes zc) ++ subField tag value)
        (subField tagZc (u32Bytes zc) ++ subField tag value).length 0 ⟨0, none, none⟩ =
      ExtraField.add ⟨zc, none, none⟩ tag value := by
  have hloop := tlvLoop_subFields ExtraField.add [(tagZc, u32Bytes zc),
    (tag, value)] ⟨0, none, none⟩ (by simpa [htag] using hvalue)
  simp only [List.flatMap_cons, List.flatMap_nil, List.append_nil, List.foldl_cons, List.foldl_nil,
    add_zc] at hloop
  rw [hloop]

theorem extraField_beg (zc : UInt32) (gc : UInt64) :
    ExtraField.add ⟨zc, none, none⟩ tagGc (u64Bytes gc) = ⟨zc, some gc, none⟩ := by
  have hne : ¬ (tagGc = tagZc ∧ 4 ≤ (u64Bytes gc).length) := fun h => absurd h.1 (by decide)
  rw [ExtraField.add, if_neg hne, if_pos ⟨rfl, by simp⟩, readU64Le_self]

theorem extraField_idx (zc : UInt32) {entries : List IndexEntry} (hne : entries ≠ []) :
    ExtraField.add ⟨zc, none, none⟩ tagIx (entries.flatMap entryBytes) = ⟨zc, none,
      some entries⟩ := by
  have hpos := List.length_pos_iff.mpr hne
  have hzc : ¬ (tagIx = tagZc ∧ 4 ≤ (entries.flatMap entryBytes).length) :=
    fun h => absurd h.1 (by decide)
  have hgc : ¬ (tagIx = tagGc ∧ 8 ≤ (entries.flatMap entryBytes).length) :=
    fun h => absurd h.1 (by decide)
  have hix : tagIx = tagIx ∧ 8 ≤ (entries.flatMap entryBytes).length ∧
      (entries.flatMap entryBytes).length % 8 = 0 := by
    rw [length_flatMap_entryBytes]
    exact ⟨rfl, by omega, by omega⟩
  rw [ExtraField.add, if_neg hzc, if_neg hgc, if_pos hix, parseEntries_flatMap]

end ExtraFields

end Pgzf
