import Pgzf.Format

/-!
# The layout of a file (`pgzf.spec.md`, sections 4 to 6)

Headers as the specification draws them: a fixed part, `XLEN`, and the sub-fields one after another.
The three builders of `format.rs` write exactly these, whatever the sizes, with each 16-bit length
cut to 16 bits. Parsing is stated once, for any list of sub-fields whose lengths fit.
-/

namespace Pgzf

def gzipBase : Bytes :=
  [gzipId1, gzipId2, gzipCmDeflate, gzipFlgFextra, 0, 0, 0, 0, pgzfXflMarker, gzipOsUnix]

def subField (tag value : Bytes) : Bytes := tag ++ u16Bytes (UInt16.ofNat value.length) ++ value

def entryBytes (entry : IndexEntry) : Bytes :=
  u32Bytes entry.compressedSize ++ u32Bytes entry.uncompressedSize

def memberHeader (extra : Bytes) : Bytes :=
  gzipBase ++ u16Bytes (UInt16.ofNat extra.length) ++ extra

def begHeader (zc : UInt32) (gc : UInt64) : Bytes :=
  memberHeader (subField tagZc (u32Bytes zc) ++ subField tagGc (u64Bytes gc))

def datHeader (zc : UInt32) : Bytes := memberHeader (subField tagZc (u32Bytes zc))

def idxHeader (zc : UInt32) (entries : List IndexEntry) : Bytes :=
  memberHeader (subField tagZc (u32Bytes zc) ++ subField tagIx (entries.flatMap entryBytes))

/-! ### Lengths -/

@[simp] theorem length_tagZc : tagZc.length = 2 := rfl

@[simp] theorem length_tagGc : tagGc.length = 2 := rfl

@[simp] theorem length_tagIx : tagIx.length = 2 := rfl

@[simp] theorem length_u16Bytes (v : UInt16) : (u16Bytes v).length = 2 :=
  LittleEndian.length_encode 2 _

@[simp] theorem length_u32Bytes (v : UInt32) : (u32Bytes v).length = 4 :=
  LittleEndian.length_encode 4 _

@[simp] theorem length_u64Bytes (v : UInt64) : (u64Bytes v).length = 8 :=
  LittleEndian.length_encode 8 _

@[simp] theorem length_entryBytes (entry : IndexEntry) : (entryBytes entry).length = 8 := by
  rw [entryBytes, List.length_append, length_u32Bytes, length_u32Bytes]

@[simp] theorem length_flatMap_entryBytes (entries : List IndexEntry) :
    (entries.flatMap entryBytes).length = 8 * entries.length := by
  induction entries with
  | nil => rfl
  | cons entry rest ih =>
    rw [List.flatMap_cons, List.length_append, length_entryBytes, ih, List.length_cons]
    omega

theorem count_flatMap_entryBytes (entries : List IndexEntry) :
    (entries.flatMap entryBytes).length / 8 = entries.length := by
  rw [length_flatMap_entryBytes, Nat.mul_div_cancel_left _ (Nat.succ_pos 7)]

@[simp] theorem length_subField (tag value : Bytes) :
    (subField tag value).length = tag.length + 2 + value.length := by
  simp only [subField, List.length_append, length_u16Bytes]

@[simp] theorem length_memberHeader (extra : Bytes) :
    (memberHeader extra).length = 12 + extra.length := by
  simp only [memberHeader, List.length_append, length_u16Bytes]
  rfl

@[simp] theorem length_begHeader (zc : UInt32) (gc : UInt64) :
    (begHeader zc gc).length = begHeaderSize := by
  simp only [begHeader, length_memberHeader, List.length_append, length_subField, length_u32Bytes,
    length_u64Bytes]
  rfl

@[simp] theorem length_datHeader (zc : UInt32) : (datHeader zc).length = datHeaderSize := by
  simp only [datHeader, length_memberHeader, length_subField, length_u32Bytes]
  rfl

@[simp] theorem length_idxHeader (zc : UInt32) (entries : List IndexEntry) :
    (idxHeader zc entries).length = idxHeaderBaseSize + 8 * entries.length := by
  simp only [idxHeader, length_memberHeader, List.length_append, length_subField, length_u32Bytes,
    length_flatMap_entryBytes, length_tagZc, length_tagIx, idxHeaderBaseSize]
  omega

/-! ### The builders write these headers -/

theorem buildGzipBase_zeros (n : Nat) :
    buildGzipBase (List.replicate (10 + n) 0) = gzipBase ++ List.replicate n 0 := by
  have hfirst : List.replicate (10 + n) (0 : UInt8) = List.replicate 10 0 ++ List.replicate n 0 :=
    List.replicate_append_replicate.symm
  have hmtime : overwrite ([gzipId1, gzipId2, gzipCmDeflate, gzipFlgFextra] ++ [0, 0, 0, 0] ++
      ([0, 0] ++ List.replicate n 0)) 4 [0, 0, 0, 0] =
      [gzipId1, gzipId2, gzipCmDeflate, gzipFlgFextra] ++ [0, 0, 0, 0] ++
          ([0, 0] ++ List.replicate n 0) :=
    overwrite_window _ _ _ _ rfl
  rw [hfirst]
  exact congrArg (fun buf => (buf.set 8 pgzfXflMarker).set 9 gzipOsUnix) hmtime

theorem writeFront_eq (xlen : UInt16) (zc : UInt32) (m n : Nat) (hm : m = 20 + n) :
    writeU32Le (writeU16Le
      (overwrite (writeU16Le (buildGzipBase (List.replicate m 0)) 10 xlen) 12 tagZc) 14 4) 16 zc =
      gzipBase ++ u16Bytes xlen ++ subField tagZc (u32Bytes zc) ++ List.replicate n 0 := by
  subst hm
  rw [show 20 + n = 10 + (10 + n) by omega, buildGzipBase_zeros, writeU16Le, writeU16Le, writeU32Le,
    overwrite_zeros gzipBase (u16Bytes xlen) 10 (10 + n) (8 + n) rfl
      (by rw [length_u16Bytes]; omega),
    overwrite_zeros _ tagZc 12 (8 + n) (6 + n) rfl (by rw [length_tagZc]; omega),
    overwrite_zeros _ (u16Bytes 4) 14 (6 + n) (4 + n) rfl (by rw [length_u16Bytes]; omega),
    overwrite_zeros _ (u32Bytes zc) 16 (4 + n) n rfl (by rw [length_u32Bytes])]
  simp only [subField, length_u32Bytes, List.append_assoc]
  rfl

theorem buildBegHeader_eq (zc : UInt32) : buildBegHeader zc = begHeader zc 0 := by
  rw [buildBegHeader, writeFront_eq 20 zc begHeaderSize 12 rfl, writeU16Le, writeU64Le,
    overwrite_zeros _ tagGc 20 12 10 rfl rfl, overwrite_zeros _ (u16Bytes 8) 22 10 8 rfl rfl,
    overwrite_zeros _ (u64Bytes 0) 24 8 0 rfl rfl]
  simp only [begHeader, memberHeader, subField, List.append_assoc, List.replicate_zero,
    List.append_nil]
  rfl

theorem buildDatHeader_eq (zc : UInt32) : buildDatHeader zc = datHeader zc := by
  rw [buildDatHeader, writeFront_eq 8 zc datHeaderSize 0 rfl]
  simp only [datHeader, memberHeader, List.replicate_zero, List.append_nil]
  rfl

/-- The entries, written one after another into a zeroed tail, are the concatenated entries. -/
theorem writeEntries_eq (entries : List IndexEntry) (front : Bytes) :
    writeEntries entries (front ++ List.replicate (entries.length * 8) 0) front.length =
      front ++ entries.flatMap entryBytes := by
  induction entries generalizing front with
  | nil => simp [writeEntries]
  | cons entry rest ih =>
    have hzeros : List.replicate ((entry :: rest).length * 8) (0 : UInt8) =
        List.replicate 4 0 ++ (List.replicate 4 0 ++ List.replicate (rest.length * 8) 0) := by
      rw [List.replicate_append_replicate, List.replicate_append_replicate, List.length_cons]
      congr 1
      omega
    have hfirst : overwrite
        (front ++ List.replicate 4 0 ++ (List.replicate 4 0 ++ List.replicate (rest.length * 8) 0))
        front.length (u32Bytes entry.compressedSize) =
        front ++ u32Bytes entry.compressedSize ++
            (List.replicate 4 0 ++ List.replicate (rest.length * 8) 0) :=
      overwrite_window _ _ _ _ (by simp)
    have hsecond : overwrite (front ++ u32Bytes entry.compressedSize ++ List.replicate 4 0 ++
        List.replicate (rest.length * 8) 0) (front.length + 4) (u32Bytes entry.uncompressedSize) =
        front ++ u32Bytes entry.compressedSize ++ u32Bytes entry.uncompressedSize ++
          List.replicate (rest.length * 8) 0 := by
      have hlen : front.length + 4 = (front ++ u32Bytes entry.compressedSize).length := by simp
      rw [hlen]
      exact overwrite_window _ _ _ _ (by simp)
    have hnext : front.length + 8 =
        (front ++ u32Bytes entry.compressedSize ++
          u32Bytes entry.uncompressedSize).length := by simp
    rw [writeEntries, writeU32Le, writeU32Le, hzeros, ← List.append_assoc front, hfirst,
      ← List.append_assoc (front ++ _), hsecond, hnext, ih, List.flatMap_cons, entryBytes]
    simp only [List.append_assoc]

theorem buildIdxHeader_eq (zc : UInt32) (entries : List IndexEntry) :
    buildIdxHeader zc entries = idxHeader zc entries := by
  have hlen : (entries.flatMap entryBytes).length = entries.length * 8 := by
    rw [length_flatMap_entryBytes, Nat.mul_comm]
  have hxlen :
      (subField tagZc (u32Bytes zc) ++ subField tagIx (entries.flatMap entryBytes)).length =
      8 + 4 + entries.length * 8 := by
    simp only [List.length_append, length_subField, length_u32Bytes, hlen, length_tagZc,
      length_tagIx]
    omega
  have hfront : gzipBase ++ u16Bytes (UInt16.ofNat (8 + 4 + entries.length * 8)) ++
      subField tagZc (u32Bytes zc) ++ tagIx ++ u16Bytes (UInt16.ofNat (entries.length * 8)) ++
        entries.flatMap entryBytes = idxHeader zc entries := by
    rw [idxHeader, memberHeader, hxlen]
    simp only [subField, hlen, List.append_assoc]
  rw [buildIdxHeader,
    writeFront_eq _ zc _ (4 + entries.length * 8) (by rw [idxHeaderBaseSize]; omega), writeU16Le,
    overwrite_zeros _ tagIx 20 (4 + entries.length * 8) (2 + entries.length * 8) rfl
      (by rw [length_tagIx]; omega),
    overwrite_zeros _ (u16Bytes _) 22 (2 + entries.length * 8) (entries.length * 8) rfl
      (by rw [length_u16Bytes]),
    ← hfront]
  exact writeEntries_eq entries _

end Pgzf
