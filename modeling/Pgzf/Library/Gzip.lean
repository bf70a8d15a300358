import Mathlib.Data.UInt
import Pgzf.Library.LittleEndian

/-!
# The gzip member format (RFC 1952)

A gzip file is one member after another: a header with optional fields, a raw deflate stream, the
CRC-32 and the length of the data. Where a stream ends is known from the stream alone, so inflating
is a parameter that takes the bytes from the stream on and gives the data and the number of bytes it
has consumed; `Delimits` says that a stream is complete in this sense.

`Member` is the format as a writer sees it, with every optional field, and `gunzip` the decoder,
which looks at nothing but the fixed header, the fields the flags announce, the stream and the
trailer. It accepts every sequence of valid members and gives their data.
-/

namespace Gzip

/-- `stream` is a complete deflate stream of `data`: whatever stands behind it, inflating stops at
its end. -/
def Delimits (inflate : List UInt8 → Option (List UInt8 × Nat)) (stream data : List UInt8) : Prop :=
  ∀ rest, inflate (stream ++ rest) = some (data, stream.length)

theorem Delimits.eq_of_prefix {inflate : List UInt8 → Option (List UInt8 × Nat)}
    {stream stream' data data' : List UInt8} (h : Delimits inflate stream data)
    (h' : Delimits inflate stream' data') (hfront : stream <+: stream') :
    stream = stream' := by
  obtain ⟨tail, rfl⟩ := hfront
  have hshort := h tail
  have hlong := h' []
  rw [List.append_nil, hshort, Option.some.injEq, Prod.mk.injEq] at hlong
  exact List.IsPrefix.eq_of_length (List.prefix_append _ _) hlong.2

/-! ### Members -/

structure Header where
  text : Bool
  headerCrc : Bool
  extra : Option (List UInt8)
  name : Option (List UInt8)
  comment : Option (List UInt8)
  mtime : List UInt8
  xfl : UInt8
  os : UInt8

namespace Header

/-- `FLG`: FTEXT, FHCRC, FEXTRA, FNAME and FCOMMENT are the bits 0 to 4. -/
def flags (h : Header) : UInt8 :=
  (if h.text then 1 else 0) ||| (if h.headerCrc then 2 else 0) ||| (if h.extra.isSome then 4
    else 0) ||| (if h.name.isSome then 8 else 0) ||| (if h.comment.isSome then 16 else 0)

def fixed (h : Header) : List UInt8 := [0x1f, 0x8b, 8, h.flags] ++ h.mtime ++ [h.xfl, h.os]

def extraBytes : Option (List UInt8) → List UInt8
  | none => []
  | some extra => LittleEndian.encode 2 extra.length ++ extra

def textBytes : Option (List UInt8) → List UInt8
  | none => []
  | some text => text ++ [0]

def front (h : Header) : List UInt8 :=
  h.fixed ++ extraBytes h.extra ++ textBytes h.name ++ textBytes h.comment

/-- The header, with the low half of the CRC-32 of its front where it has a checksum. -/
def bytes (hash : List UInt8 → UInt32) (h : Header) : List UInt8 :=
  h.front ++ if h.headerCrc then LittleEndian.encode 2 (hash h.front).toNat else []

/-- The lengths fit, and the strings hold no zero byte. -/
structure Valid (h : Header) : Prop where
  mtime : h.mtime.length = 4
  extra : ∀ extra ∈ h.extra, extra.length < 2 ^ 16
  name : ∀ text ∈ h.name, (0 : UInt8) ∉ text
  comment : ∀ text ∈ h.comment, (0 : UInt8) ∉ text

end Header

structure Member where
  header : Header
  stream : List UInt8
  data : List UInt8

namespace Member

def trailer (hash : List UInt8 → UInt32) (data : List UInt8) : List UInt8 :=
  LittleEndian.encode 4 (hash data).toNat ++ LittleEndian.encode 4 data.length

def bytes (hash : List UInt8 → UInt32) (m : Member) : List UInt8 :=
  m.header.bytes hash ++ (m.stream ++ trailer hash m.data)

structure Valid (inflate : List UInt8 → Option (List UInt8 × Nat)) (m : Member) : Prop where
  header : m.header.Valid
  stream : Delimits inflate m.stream m.data

end Member

/-! ### The decoder -/

def split (n : Nat) (bytes : List UInt8) : Option (List UInt8 × List UInt8) :=
  if n ≤ bytes.length then some (bytes.take n, bytes.drop n) else none

def skipText : List UInt8 → Option (List UInt8)
  | [] => none
  | byte :: rest => if byte = 0 then some rest else skipText rest

/-- The extra field, where the flags announce one. -/
def decodeExtra (flg : UInt8) (bytes : List UInt8) : Option (Option (List UInt8) × List UInt8) :=
  if flg &&& 4 = 0 then some (none, bytes)
  else (split 2 bytes).bind fun (xlen, rest) =>
    (split (LittleEndian.decode xlen) rest).bind fun (extra, rest) => some (some extra, rest)

/-- What stands behind the string that the bit `mask` announces. -/
def decodeText (mask flg : UInt8) (bytes : List UInt8) : Option (List UInt8) :=
  if flg &&& mask = 0 then some bytes else skipText bytes

/-- What stands behind the checksum of the header, where the flags announce one and it is right. -/
def decodeHeaderCrc (hash : List UInt8 → UInt32) (flg : UInt8) (member bytes : List UInt8) :
    Option (List UInt8) :=
  if flg &&& 2 = 0 then some bytes
  else (split 2 bytes).bind fun (crc, rest) =>
    if LittleEndian.decode crc = (hash (member.take (member.length - bytes.length))).toNat % 2 ^
      16 then some rest else none

structure Decoded where
  extra : Option (List UInt8)
  data : List UInt8
  deriving DecidableEq

/-- The member at the front of some bytes, and what stands behind it. -/
def decodeMember (inflate : List UInt8 → Option (List UInt8 × Nat)) (hash : List UInt8 → UInt32)
    (bytes : List UInt8) : Option (Decoded × List UInt8) :=
  (split 10 bytes).bind fun (fixed, rest) =>
    if fixed.take 3 ≠ [0x1f, 0x8b, 8] ∨ fixed.getD 3 0 &&& 0xE0 ≠ 0 then none
    else
      (decodeExtra (fixed.getD 3 0) rest).bind fun (extra, rest) =>
      (decodeText 8 (fixed.getD 3 0) rest).bind fun rest =>
      (decodeText 16 (fixed.getD 3 0) rest).bind fun rest =>
      (decodeHeaderCrc hash (fixed.getD 3 0) bytes rest).bind fun rest =>
      (inflate rest).bind fun (data, consumed) =>
      (split 8 (rest.drop consumed)).bind fun (trailer, rest) =>
        if trailer = Member.trailer hash data then some (⟨extra, data⟩, rest) else none

/-- All members of a file; nothing where a byte is left over.
A member is not empty, so one turn for each byte is enough. -/
def decodeMembers (inflate : List UInt8 → Option (List UInt8 × Nat)) (hash : List UInt8 → UInt32) :
    Nat → List UInt8 → Option (List Decoded)
  | _, [] => some []
  | 0, _ => none
  | fuel + 1, bytes => (decodeMember inflate hash bytes).bind fun (m, rest) =>
    (decodeMembers inflate hash fuel rest).map (m :: ·)

def gunzip (inflate : List UInt8 → Option (List UInt8 × Nat)) (hash : List UInt8 → UInt32)
    (bytes : List UInt8) :
    Option (List Decoded) := decodeMembers inflate hash bytes.length bytes

/-- The sub-fields of an extra field: a tag of two bytes, the length of the value, the value.
Nothing where they do not fill it exactly. -/
def decodeSubFields : Nat → List UInt8 → Option (List (List UInt8 × List UInt8))
  | _, [] => some []
  | 0, _ => none
  | fuel + 1, bytes => (split 2 bytes).bind fun (tag, rest) =>
    (split 2 rest).bind fun (slen, rest) =>
    (split (LittleEndian.decode slen) rest).bind fun (value, rest) =>
      (decodeSubFields fuel rest).map ((tag, value) :: ·)

def subFields (extra : List UInt8) : Option (List (List UInt8 × List UInt8)) :=
  decodeSubFields extra.length extra

/-! ### The pieces of a header -/

theorem split_append {n : Nat} {front : List UInt8} (h : front.length = n) (rest : List UInt8) :
    split n (front ++ rest) = some (front, rest) := by
  have hle : n ≤ (front ++ rest).length := by
    rw [List.length_append]
    omega
  rw [split, if_pos hle, ← h, List.take_left, List.drop_left]

theorem skipText_append {text : List UInt8} (h : (0 : UInt8) ∉ text) (rest : List UInt8) :
    skipText (text ++ 0 :: rest) = some rest := by
  induction text with
  | nil => rfl
  | cons byte text ih =>
    rw [List.mem_cons, not_or] at h
    rw [List.cons_append, skipText, if_neg (Ne.symm h.1), ih h.2]

section Flags

variable (h : Header)

theorem flags_spec :
    (h.flags &&& 2 = 0 ↔ h.headerCrc = false) ∧ (h.flags &&& 4 = 0 ↔ h.extra = none) ∧
    (h.flags &&& 8 = 0 ↔ h.name = none) ∧ (h.flags &&& 16 = 0 ↔ h.comment = none) ∧
      h.flags &&& 0xE0 = 0 := by
  obtain ⟨text, headerCrc, extra, name, comment, mtime, xfl, os⟩ := h
  cases text <;> cases headerCrc <;> cases extra <;> cases name <;> cases comment <;>
    simp only [Header.flags, Option.isSome_none, Option.isSome_some, if_true, if_false,
      Bool.false_eq_true, reduceCtorEq, iff_true, iff_false] <;> decide

end Flags

theorem decodeExtra_append {h : Header} (hvalid : h.Valid) (rest : List UInt8) :
    decodeExtra h.flags (Header.extraBytes h.extra ++ rest) = some (h.extra, rest) := by
  have hflag := (flags_spec h).2.1
  rw [decodeExtra]
  cases hextra : h.extra with
  | none => rw [if_pos (hflag.mpr hextra), Header.extraBytes, List.nil_append]
  | some extra =>
    have hlen : extra.length < 256 ^ 2 := hvalid.extra extra hextra
    rw [if_neg fun hzero => by simp [hflag.mp hzero] at hextra, Header.extraBytes,
      List.append_assoc, split_append (LittleEndian.length_encode 2 _), Option.bind_some]
    simp only [LittleEndian.decode_encode_of_lt hlen]
    rw [split_append rfl, Option.bind_some]

theorem decodeText_append {mask flg : UInt8} {text : Option (List UInt8)}
    (hflag : flg &&& mask = 0 ↔ text = none) (hvalid : ∀ t ∈ text, (0 : UInt8) ∉ t)
    (rest : List UInt8) :
    decodeText mask flg (Header.textBytes text ++ rest) = some rest := by
  rw [decodeText]
  cases text with
  | none => rw [if_pos (hflag.mpr rfl), Header.textBytes, List.nil_append]
  | some t =>
    rw [if_neg fun hzero => absurd (hflag.mp hzero) (by simp), Header.textBytes, List.append_assoc,
      List.singleton_append, skipText_append (hvalid t rfl)]

theorem decodeHeaderCrc_append (hash : List UInt8 → UInt32) (h : Header) (rest : List UInt8) :
    decodeHeaderCrc hash h.flags (h.bytes hash ++ rest)
      ((if h.headerCrc then LittleEndian.encode 2 (hash h.front).toNat else []) ++ rest) =
        some rest := by
  have hflag := (flags_spec h).1
  rw [decodeHeaderCrc]
  cases hcrc : h.headerCrc with
  | false => simp only [if_pos (hflag.mpr hcrc), Bool.false_eq_true, if_false, List.nil_append]
  | true =>
    have hfront : (h.bytes hash ++ rest).take ((h.bytes hash ++ rest).length -
        (LittleEndian.encode 2 (hash h.front).toNat ++ rest).length) = h.front := by
      simp only [Header.bytes, hcrc, if_true, List.append_assoc]
      rw [List.length_append, Nat.add_sub_cancel, List.take_left]
    rw [if_neg fun hzero => by simp [hflag.mp hzero] at hcrc]
    simp only [if_true, hfront]
    rw [split_append (LittleEndian.length_encode 2 _), Option.bind_some]
    simp only [LittleEndian.decode_encode, show 256 ^ 2 = 2 ^ 16 from rfl, if_true]

/-! ### The decoder accepts valid members -/

variable {inflate : List UInt8 → Option (List UInt8 × Nat)} {hash : List UInt8 → UInt32}

theorem length_trailer (data : List UInt8) : (Member.trailer hash data).length = 8 := by
  rw [Member.trailer, List.length_append, LittleEndian.length_encode, LittleEndian.length_encode]

theorem length_fixed {h : Header} (hvalid : h.Valid) : h.fixed.length = 10 := by
  simp only [Header.fixed, List.length_append, List.length_cons, List.length_nil, hvalid.mtime]

theorem decodeMember_append {m : Member} (hvalid : m.Valid inflate) (rest : List UInt8) :
    decodeMember inflate hash (m.bytes hash ++ rest) = some (⟨m.header.extra, m.data⟩, rest) := by
  obtain ⟨-, -, hname, hcomment, hreserved⟩ := flags_spec m.header
  have hfixed := length_fixed hvalid.header
  have hbytes : m.bytes hash ++ rest = m.header.fixed ++ (Header.extraBytes m.header.extra ++
      (Header.textBytes m.header.name ++ (Header.textBytes m.header.comment ++
        ((if m.header.headerCrc then LittleEndian.encode 2 (hash m.header.front).toNat else []) ++
          (m.stream ++ (Member.trailer hash m.data ++ rest)))))) := by
    simp only [Member.bytes, Header.bytes, Header.front, List.append_assoc]
  have hcrc :=
    decodeHeaderCrc_append hash m.header (m.stream ++ (Member.trailer hash m.data ++ rest))
  have hmember : m.header.bytes hash ++ (m.stream ++ (Member.trailer hash m.data ++ rest)) =
      m.bytes hash ++ rest := by
    simp only [Member.bytes, List.append_assoc]
  rw [hmember] at hcrc
  have hmagic : m.header.fixed.take 3 = [0x1f, 0x8b, 8] := rfl
  have hflg : m.header.fixed.getD 3 0 = m.header.flags := rfl
  have hsplit : split 10 (m.bytes hash ++ rest) = some (m.header.fixed,
      (m.bytes hash ++ rest).drop 10) := by
    rw [hbytes, split_append hfixed, ← hfixed, List.drop_left]
  rw [decodeMember, hsplit, Option.bind_some]
  simp only [hmagic, hflg, hreserved, ne_eq, not_true, or_self, if_false]
  rw [hbytes, ← hfixed, List.drop_left, decodeExtra_append hvalid.header, Option.bind_some]
  simp only
  rw [decodeText_append hname hvalid.header.name, Option.bind_some,
    decodeText_append hcomment hvalid.header.comment,
    Option.bind_some, ← hbytes, hcrc, Option.bind_some, hvalid.stream, Option.bind_some]
  simp only [List.drop_left]
  rw [split_append (length_trailer m.data), Option.bind_some]
  simp only [if_true]

theorem bytes_ne_nil (hash : List UInt8 → UInt32) (m : Member) : m.bytes hash ≠ [] := by
  simp [Member.bytes, Header.bytes, Header.front, Header.fixed]

theorem decodeMembers_flatMap {members : List Member} (hvalid : ∀ m ∈ members, m.Valid inflate)
    {fuel : Nat} (hfuel : (members.flatMap (Member.bytes hash)).length ≤ fuel) :
    decodeMembers inflate hash fuel (members.flatMap (Member.bytes hash)) =
      some (members.map fun m => ⟨m.header.extra, m.data⟩) := by
  induction members generalizing fuel with
  | nil => cases fuel <;> rfl
  | cons m rest ih =>
    have hpos : 0 < (m.bytes hash).length := List.length_pos_iff.mpr (bytes_ne_nil hash m)
    rw [List.flatMap_cons, List.length_append] at hfuel
    obtain ⟨fuel, rfl⟩ : ∃ k, fuel = k + 1 := ⟨fuel - 1, by omega⟩
    obtain ⟨byte, tail, htail⟩ := List.exists_cons_of_ne_nil (bytes_ne_nil hash m)
    have hstep : decodeMembers inflate hash (fuel + 1)
        (m.bytes hash ++ rest.flatMap (Member.bytes hash)) =
        (decodeMember inflate hash (m.bytes hash ++ rest.flatMap (Member.bytes hash))).bind
            fun (m, rest) =>
          (decodeMembers inflate hash fuel rest).map (m :: ·) := by
      rw [htail]
      rfl
    rw [List.flatMap_cons, hstep, decodeMember_append (hvalid m List.mem_cons_self),
      Option.bind_some]
    simp only
    rw [ih (fun m hm => hvalid m (List.mem_cons_of_mem _ hm)) (by omega), Option.map_some,
      List.map_cons]

theorem gunzip_flatMap {members : List Member} (hvalid : ∀ m ∈ members, m.Valid inflate) :
    gunzip inflate hash (members.flatMap (Member.bytes hash)) =
      some (members.map fun m => ⟨m.header.extra, m.data⟩) :=
  decodeMembers_flatMap hvalid (Nat.le_refl _)

/-! ### Sub-fields -/

theorem decodeSubFields_flatMap {fields : List (List UInt8 × List UInt8)}
    (hfields : ∀ field ∈ fields, field.1.length = 2 ∧ field.2.length < 2 ^ 16) {fuel : Nat}
    (hfuel : fields.length ≤ fuel) :
    decodeSubFields fuel (fields.flatMap fun field =>
      field.1 ++ LittleEndian.encode 2 field.2.length ++ field.2) =
      some fields := by
  induction fields generalizing fuel with
  | nil => cases fuel <;> rfl
  | cons field rest ih =>
    obtain ⟨htag, hvalue⟩ := hfields field List.mem_cons_self
    obtain ⟨fuel, rfl⟩ : ∃ k, fuel = k + 1 := ⟨fuel - 1, by rw [List.length_cons] at hfuel; omega⟩
    obtain ⟨byte, tail, hcons⟩ := List.exists_cons_of_length_pos (show 0 < field.1.length by omega)
    have hstep : ∀ bytes, decodeSubFields (fuel + 1) (field.1 ++ bytes) =
        (split 2 (field.1 ++ bytes)).bind fun (tag, rest) => (split 2 rest).bind fun (slen, rest) =>
          (split (LittleEndian.decode slen) rest).bind fun (value, rest) =>
            (decodeSubFields fuel rest).map ((tag, value) :: ·) := by
      intro bytes
      rw [hcons]
      rfl
    rw [List.flatMap_cons, List.append_assoc, List.append_assoc, hstep, split_append htag,
      Option.bind_some]
    simp only
    rw [split_append (LittleEndian.length_encode 2 _), Option.bind_some]
    simp only [LittleEndian.decode_encode_of_lt (show field.2.length < 256 ^ 2 from hvalue)]
    rw [split_append rfl, Option.bind_some]
    simp only
    rw [ih (fun f hf => hfields f (List.mem_cons_of_mem _ hf))
      (by rw [List.length_cons] at hfuel; omega), Option.map_some]

theorem subFields_flatMap {fields : List (List UInt8 × List UInt8)}
    (hfields : ∀ field ∈ fields, field.1.length = 2 ∧ field.2.length < 2 ^ 16) :
    subFields (fields.flatMap fun field => field.1 ++ LittleEndian.encode 2 field.2.length ++
      field.2) = some fields := by
  apply decodeSubFields_flatMap hfields
  induction fields with
  | nil => exact Nat.zero_le _
  | cons field rest ih =>
    have hrest := ih fun f hf => hfields f (List.mem_cons_of_mem _ hf)
    have htag := (hfields field List.mem_cons_self).1
    rw [List.flatMap_cons, List.length_cons, List.length_append, List.length_append,
      List.length_append]
    omega

end Gzip
