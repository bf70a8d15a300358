import Pgzf.Compress
import Pgzf.Library.Gzip
import Pgzf.Library.SortedSearch

/-!
# A codec of stored blocks

Concrete functions for the parameter `D`: what `flate2` does at level 0 with less than 64 KiB, one
final stored block, the CRC-32 of gzip, and the search of the standard library. They show that the
laws of `Deps` can be met, and let the model run.
-/

namespace Pgzf.Stored

def crcBit (crc : UInt32) : UInt32 :=
  if crc &&& 1 = 1 then (crc >>> 1) ^^^ 0xEDB88320 else crc >>> 1

def crcByte (crc : UInt32) (byte : UInt8) : UInt32 :=
  crcBit (crcBit (crcBit (crcBit (crcBit (crcBit (crcBit (crcBit (crc ^^^ byte.toUInt32))))))))

def hash (data : Bytes) : UInt32 := data.foldl crcByte 0xFFFFFFFF ^^^ 0xFFFFFFFF

/-- A final stored block: the flag byte, the length and its complement, the data. -/
def stream (data : Bytes) : Bytes :=
  1 ::
    (LittleEndian.encode 2 data.length ++ LittleEndian.encode 2 (2 ^ 16 - 1 - data.length) ++ data)

def compress (_level : Nat) (data : Bytes) (n : Nat) : Except String (Status × Bytes) :=
  if data.length < 2 ^ 16 then
    .ok (if (stream data).length ≤ n then .streamEnd else .ok, (stream data).take n)
  else
    .error "data too long for one stored block"

def decompress (input : Bytes) (n : Nat) : Except String (Status × Bytes) :=
  let len := LittleEndian.decode (slice input 1 3)
  if input.getD 0 0 = 1 ∧ 5 ≤ input.length ∧
      LittleEndian.decode (slice input 3 5) = 2 ^ 16 - 1 - len then
    let data := (input.drop 5).take len
    .ok (if data.length = len ∧ len ≤ n then .streamEnd else .bufError, data.take n)
  else
    .error "deflate decompression error"

theorem compress_le (level : Nat) (data : Bytes) (n : Nat) (status : Status) (out : Bytes)
    (h : compress level data n = .ok (status, out)) : out.length ≤ n := by
  unfold compress at h
  split at h
  · obtain ⟨-, rfl⟩ := Prod.mk.inj (Except.ok.inj h)
    exact List.length_take_le n _
  · exact absurd h (by simp)

theorem decompress_le (input : Bytes) (n : Nat) (status : Status) (out : Bytes)
    (h : decompress input n = .ok (status, out)) : out.length ≤ n := by
  simp only [decompress] at h
  split at h
  · obtain ⟨-, rfl⟩ := Prod.mk.inj (Except.ok.inj h)
    exact List.length_take_le n _
  · exact absurd h (by simp)

/-- `slice::binary_search`, which goes by halves. -/
def binarySearch (xs : List Nat) (target : Nat) : Except Nat Nat := SortedSearch.search xs target

theorem binarySearch_ok (xs : List Nat) (target i : Nat) (hsorted : xs.Pairwise (· ≤ ·))
    (h : binarySearch xs target = .ok i) : xs[i]? = some target := by
  have hanswer := @SortedSearch.search_answers _ _ xs target hsorted
  rw [← binarySearch, h] at hanswer
  cases hanswer with
  | found hmatch => exact hmatch

theorem binarySearch_error (xs : List Nat) (target i : Nat) (hsorted : xs.Pairwise (· ≤ ·))
    (h : binarySearch xs target = .error i) :
    i ≤ xs.length ∧ (∀ j x, xs[j]? = some x → j < i → x < target) ∧
      (∀ j x, xs[j]? = some x → i ≤ j → target < x) := by
  have hanswer := @SortedSearch.search_answers _ _ xs target hsorted
  rw [← binarySearch, h] at hanswer
  cases hanswer with
  | missing hlen hbelow habove => exact ⟨hlen, hbelow, habove⟩

/-- The parameter `D` with stored blocks. -/
def deps : Deps where
  compress := compress
  decompress := decompress
  hash := hash
  lru := Lru.ofList Nat CacheEntry
  binarySearch := binarySearch
  compress_le := compress_le
  decompress_le := decompress_le
  binarySearch_ok := binarySearch_ok
  binarySearch_error := binarySearch_error

/-- What `decompress` does where the end of the stream is not known beforehand: the data of the
stored block at the front, and the length of the block. -/
def inflate (input : Bytes) : Option (Bytes × Nat) :=
  let len := LittleEndian.decode (slice input 1 3)
  if input.getD 0 0 = 1 ∧ 5 + len ≤ input.length ∧
      LittleEndian.decode (slice input 3 5) = 2 ^ 16 - 1 - len then
    some ((input.drop 5).take len, 5 + len)
  else
    none

theorem length_stream (data : Bytes) : (stream data).length = 5 + data.length := by
  simp only [stream, List.length_cons, List.length_append, LittleEndian.length_encode]
  omega

theorem stream_fields {data : Bytes} (h : data.length < 2 ^ 16) (rest : Bytes) :
    LittleEndian.decode (slice (stream data ++ rest) 1 3) = data.length ∧
      LittleEndian.decode (slice (stream data ++ rest) 3 5) = 2 ^ 16 - 1 - data.length ∧
      (stream data ++ rest).drop 5 = data ++ rest := by
  refine ⟨?_, ?_, ?_⟩
  · have hslice : slice (stream data ++ rest) 1 3 = LittleEndian.encode 2 data.length := by
      simp [slice, stream]
    rw [hslice, LittleEndian.decode_encode_of_lt h]
  · have hslice : slice (stream data ++ rest) 3 5 = LittleEndian.encode 2
        (2 ^ 16 - 1 - data.length) := by
      simp [slice, stream, List.take_append]
    rw [hslice, LittleEndian.decode_encode_of_lt (by omega)]
  · simp [stream, List.drop_append]

theorem delimits_stream {data : Bytes} (h : data.length < 2 ^ 16) :
    Gzip.Delimits inflate (stream data) data := by
  intro rest
  obtain ⟨hlen, hcheck, hdrop⟩ := stream_fields h rest
  have hfirst : (stream data ++ rest).getD 0 0 = 1 := rfl
  have hroom : 5 + data.length ≤ (stream data ++ rest).length := by
    rw [List.length_append, length_stream]
    omega
  simp only [inflate, hlen, hcheck, hfirst, hroom, hdrop, true_and, if_true, List.take_left,
    length_stream]

theorem inflates_stream {data : Bytes} (h : data.length < 2 ^ 16) :
    deps.Inflates (stream data) data := by
  intro n hn
  obtain ⟨hlen, hcheck, hdrop⟩ := stream_fields h []
  simp only [List.append_nil] at hlen hcheck hdrop
  have hcond : (stream data).getD 0 0 = 1 ∧ 5 ≤ (stream data).length ∧
      LittleEndian.decode (slice (stream data) 3 5) = 2 ^ 16 - 1 - LittleEndian.decode
          (slice (stream data) 1 3) :=
    ⟨rfl, by rw [length_stream]; omega, by rw [hlen, hcheck]⟩
  refine ⟨.streamEnd, ?_⟩
  change decompress (stream data) n = _
  simp only [decompress]
  rw [if_pos hcond]
  simp only [hlen, hdrop, List.take_length, true_and, if_pos hn, List.take_of_length_le hn]

theorem compress_eq (level : Nat) {data : Bytes} (h : data.length < 2 ^ 16) :
    deps.compress level data (upperBound data.length) = .ok (.streamEnd, stream data) := by
  have hlen : (stream data).length ≤ upperBound data.length := by
    rw [length_stream, upperBound]
    omega
  change compress level data (upperBound data.length) = _
  simp only [compress, if_pos h, if_pos hlen, List.take_of_length_le hlen]

theorem complete (level : Nat) {data : Bytes} (h : data.length < 2 ^ 16) :
    deps.Complete level data :=
  ⟨stream data, compress_eq level h, inflates_stream h⟩

theorem compressBlock_eq (level : Nat) {data : Bytes} (h : data.length < 2 ^ 16) :
    compressBlock deps level data = .ok (stream data) := by
  rw [compressBlock, compress_eq level h]

end Pgzf.Stored
