import Pgzf.Format
import Pgzf.Library.Lru

/-!
# What the crate takes from elsewhere

`flate2`, `crc32fast`, `lru` and the binary search of the standard library, as one parameter `D` of
the model. Its fields are what the code calls; the laws it carries are the ones no implementation
may break: a call writes no more than its output buffer holds, `lru` keeps its entries in order of
use, and a binary search answers as documented, where of several equal elements any may be found.

What a compressor is expected to achieve is not a law but a hypothesis, `Deps.Inflates` and
`Deps.Complete`, taken where it is needed: a compressor may well fill its buffer before it is done.
-/

namespace Pgzf

/-- `flate2::Status`. -/
inductive Status where
  | ok
  | bufError
  | streamEnd
  deriving DecidableEq, Repr

/-- An entry of the block cache: the data and the size it is accounted with. -/
structure CacheEntry where
  data : Bytes
  size : Nat
  deriving DecidableEq, Repr

/-- The external functions. `compress level data n` and `decompress data n` are one call of `flate2`
on a reset state, with an output buffer of `n` bytes and the `Finish` flush: the status and the
bytes written, or the text of the error. -/
structure Deps where
  compress : Nat → Bytes → Nat → Except String (Status × Bytes)
  decompress : Bytes → Nat → Except String (Status × Bytes)
  hash : Bytes → UInt32
  lru : Lru Nat CacheEntry
  binarySearch : List Nat → Nat → Except Nat Nat
  compress_le : ∀ level data n status out, compress level data n = .ok (status, out) →
    out.length ≤ n
  decompress_le : ∀ data n status out, decompress data n = .ok (status, out) → out.length ≤ n
  binarySearch_ok : ∀ xs target i, xs.Pairwise (· ≤ ·) → binarySearch xs target = .ok i →
    xs[i]? = some target
  binarySearch_error : ∀ xs target i, xs.Pairwise (· ≤ ·) → binarySearch xs target = .error i →
    i ≤ xs.length ∧ (∀ j x, xs[j]? = some x → j < i → x < target) ∧
      (∀ j x, xs[j]? = some x → i ≤ j → target < x)

variable (D : Deps)

/-! ### `compress.rs` -/

/-- The output buffer `ReusableCompressor::compress` provides. -/
def upperBound (len : Nat) : Nat := len + len / 1000 + 64

/-- `ReusableCompressor::compress`: both `Ok` and `StreamEnd` count as success. -/
def compressBlock (level : Nat) (data : Bytes) : Except PgzfError Bytes :=
  match D.compress level data (upperBound data.length) with
  | .error e => .error (.deflate e)
  | .ok (.bufError, _) => .error (.deflate "buffer error")
  | .ok (_, out) => .ok out

/-- `ReusableDecompressor::decompress` into a buffer of `n` bytes, cut to what was written. -/
def decompressBlock (compressed : Bytes) (n : Nat) : Except PgzfError Bytes :=
  match D.decompress compressed n with
  | .error e => .error (.inflate e)
  | .ok (_, out) => .ok out

/-! ### What is expected of a compressor -/

/-- `stream` inflates to `data`: into any buffer that holds it, exactly `data` is written. -/
def Deps.Inflates (stream data : Bytes) : Prop :=
  ∀ n, data.length ≤ n → ∃ status, D.decompress stream n = .ok (status, data)

/-- The compressor finishes its stream for `data` within the buffer it is given, and that stream
inflates to `data`. -/
def Deps.Complete (level : Nat) (data : Bytes) : Prop :=
  ∃ stream, D.compress level data (upperBound data.length) = .ok (.streamEnd, stream) ∧
    D.Inflates stream data

/-- What `compressBlock` returns, where it returns something. -/
def deflated (level : Nat) (data : Bytes) : Bytes :=
  match compressBlock D level data with
  | .ok out => out
  | .error _ => []

theorem compressBlock_eq_deflated {level : Nat} {data out : Bytes}
    (h : compressBlock D level data = .ok out) :
    compressBlock D level data = .ok (deflated D level data) := by
  rw [deflated, h]

theorem length_deflated_le (level : Nat) (data : Bytes) :
    (deflated D level data).length ≤ upperBound data.length := by
  unfold deflated compressBlock
  split
  · rename_i out h
    split at h
    · exact absurd h (by simp)
    · exact absurd h (by simp)
    · rename_i status hstatus heq
      exact Except.ok.inj h ▸ D.compress_le _ _ _ _ _ heq
  · exact Nat.zero_le _

variable {D}

theorem Deps.Complete.compressBlock_eq {level : Nat} {data : Bytes} (h : D.Complete level data) :
    compressBlock D level data = .ok (deflated D level data) := by
  obtain ⟨stream, hstream, _⟩ := h
  have hok : compressBlock D level data = .ok stream := by rw [compressBlock, hstream]
  exact compressBlock_eq_deflated D hok

theorem Deps.Complete.inflates {level : Nat} {data : Bytes} (h : D.Complete level data) :
    D.Inflates (deflated D level data) data := by
  obtain ⟨stream, hstream, hinflates⟩ := h
  rw [deflated, compressBlock, hstream]
  exact hinflates

theorem Deps.Inflates.decompressBlock_eq {stream data : Bytes} {n : Nat}
    (h : D.Inflates stream data) (hn : data.length ≤ n) :
    decompressBlock D stream n = .ok data := by
  obtain ⟨status, hstatus⟩ := h n hn
  rw [decompressBlock, hstatus]

end Pgzf
