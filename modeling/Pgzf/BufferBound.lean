import Pgzf.Library.StaticHuffman
import Pgzf.Stored

/-!
# A stream longer than its buffer

The compressor gets a buffer of the length of the data, a thousandth of it, and 64 bytes. When the
stream is longer, `flate2` fills the buffer and answers `Ok`, which `compress` takes for success:
the block it returns is the front of a stream. Fast levels make such streams, since the fixed
Huffman code spends nine bits on every byte from 144 on.
-/

namespace Pgzf

/-- What `flate2` documents of a call of `compress` with the `Finish` flush: as much of a complete
stream of the data is written as the buffer holds, `StreamEnd` says that this is all of it, and `Ok`
that the buffer was filled first. -/
structure Documented (D : Deps) (inflate : Bytes → Option (Bytes × Nat))
    (streamOf : Nat → Bytes → Bytes) : Prop where
  complete : ∀ level data, Gzip.Delimits inflate (streamOf level data) data
  writes : ∀ level data n status out, D.compress level data n = .ok (status, out) →
    out = (streamOf level data).take n
  streamEnd : ∀ level data n out, D.compress level data n = .ok (.streamEnd, out) →
    (streamOf level data).length ≤ n
  ok : ∀ level data n out, D.compress level data n = .ok (.ok, out) →
    n ≤ (streamOf level data).length

variable {D : Deps} {inflate : Bytes → Option (Bytes × Nat)} {streamOf : Nat → Bytes → Bytes}

theorem Documented.compressBlock_eq (h : Documented D inflate streamOf) {level : Nat}
    {data c : Bytes} (hc : compressBlock D level data = .ok c) :
    c = (streamOf level data).take (upperBound data.length) := by
  unfold compressBlock at hc
  split at hc
  · exact absurd hc (by simp)
  · exact absurd hc (by simp)
  · rename_i status out hstatus heq
    obtain rfl := Except.ok.inj hc
    exact h.writes _ _ _ _ _ heq

/-- The front of a complete stream is complete only when it is all of it. -/
theorem Documented.delimits_take_iff (h : Documented D inflate streamOf) (level : Nat)
    (data : Bytes) (n : Nat) :
    Gzip.Delimits inflate ((streamOf level data).take n) data ↔
      (streamOf level data).length ≤ n := by
  constructor
  · intro htake
    have heq := htake.eq_of_prefix (h.complete level data) (List.take_prefix n _)
    rw [← heq]
    exact List.length_take_le n _
  · intro hle
    rw [List.take_of_length_le hle]
    exact h.complete level data

/-- What `compress` returns is a complete stream of the data exactly when `flate2` refuses the data
or its stream fits into the buffer. -/
theorem compress_complete_iff (h : Documented D inflate streamOf) (level : Nat) (data : Bytes) :
    (∀ c, compressBlock D level data = .ok c → Gzip.Delimits inflate c data) ↔
      (∃ e, D.compress level data (upperBound data.length) = .error e) ∨
      (∃ out, D.compress level data (upperBound data.length) = .ok (.bufError, out)) ∨
      (streamOf level data).length ≤ upperBound data.length := by
  rw [← h.delimits_take_iff]
  constructor
  · intro hcomplete
    cases hcall : D.compress level data (upperBound data.length) with
    | error e => exact .inl ⟨e, rfl⟩
    | ok answer =>
      obtain ⟨status, out⟩ := answer
      have hout := h.writes _ _ _ _ _ hcall
      cases status with
      | bufError => exact .inr (.inl ⟨out, rfl⟩)
      | ok => exact .inr (.inr (hout ▸ hcomplete out (by rw [compressBlock, hcall])))
      | streamEnd => exact .inr (.inr (hout ▸ hcomplete out (by rw [compressBlock, hcall])))
  · rintro (⟨e, herror⟩ | ⟨out, hbuf⟩ | hfits) c hc
    · rw [compressBlock, herror] at hc
      exact absurd hc (by simp)
    · rw [compressBlock, hbuf] at hc
      exact absurd hc (by simp)
    · rw [h.compressBlock_eq hc]
      exact hfits

/-! ### A fast level -/

/-- A level that looks for no better code than the fixed one, on data without repetitions. -/
def Stored.fastCompress (_level : Nat) (data : Bytes) (n : Nat) : Except String (Status × Bytes) :=
  .ok (if (StaticHuffman.stream data).length ≤ n then .streamEnd else .ok,
    (StaticHuffman.stream data).take n)

def Stored.fastDeps : Deps :=
  { deps with
    compress := fastCompress
    compress_le := fun _ data n _ _ h => by
      obtain ⟨-, rfl⟩ := Prod.mk.inj (Except.ok.inj h)
      exact List.length_take_le n _ }

theorem Stored.fast_documented :
    Documented fastDeps StaticHuffman.inflate fun _ => StaticHuffman.stream := by
  constructor
  · exact fun _ data => StaticHuffman.delimits_stream data
  · intro level data n status out h
    exact (Prod.mk.inj (Except.ok.inj h)).2.symm
  · intro level data n out h
    by_contra hlong
    have hstatus := (Prod.mk.inj (Except.ok.inj h)).1
    rw [if_neg hlong] at hstatus
    exact absurd hstatus (by decide)
  · intro level data n out h
    by_contra hshort
    have hstatus := (Prod.mk.inj (Except.ok.inj h)).1
    rw [if_pos (by omega)] at hstatus
    exact absurd hstatus (by decide)

theorem Stored.fast_compressBlock (level : Nat) (data : Bytes) :
    compressBlock fastDeps level data =
      .ok ((StaticHuffman.stream data).take (upperBound data.length)) := by
  have hanswer : fastDeps.compress level data (upperBound data.length) =
      fastCompress level data (upperBound data.length) := rfl
  rw [compressBlock, hanswer, fastCompress]
  by_cases hfits : (StaticHuffman.stream data).length ≤ upperBound data.length
  · rw [if_pos hfits]
  · rw [if_neg hfits]

/-- Bytes from 144 on in 256 different pairs, so that no three of them are repeated. -/
def Stored.pairs : Bytes :=
  (List.range 256).flatMap fun i => [UInt8.ofNat (144 + i / 16), UInt8.ofNat (208 + i % 16)]

theorem compress_complete_iff_sample : ∃ c,
    compressBlock Stored.fastDeps 1 (Stored.pairs.take 496) = .ok c ∧
      Gzip.Delimits StaticHuffman.inflate c (Stored.pairs.take 496) := by
  have hfits : (StaticHuffman.stream (Stored.pairs.take 496)).length ≤
      upperBound (Stored.pairs.take 496).length := by
    decide +kernel
  have hcomplete := (compress_complete_iff Stored.fast_documented 1 (Stored.pairs.take 496)).mpr
    (.inr (.inr hfits))
  exact ⟨_, Stored.fast_compressBlock 1 _, hcomplete _ (Stored.fast_compressBlock 1 _)⟩

/-- 512 bytes of the pairs make a stream of 578 bytes; the buffer has 576, and its content is
returned as the block. -/
theorem compress_cuts_off :
    Documented Stored.fastDeps StaticHuffman.inflate (fun _ => StaticHuffman.stream) ∧
      ∃ c, compressBlock Stored.fastDeps 1 Stored.pairs = .ok c ∧ c.length = 576 ∧
        (StaticHuffman.stream Stored.pairs).length = 578 ∧
          ¬ Gzip.Delimits StaticHuffman.inflate c Stored.pairs := by
  have hbound : upperBound Stored.pairs.length = 576 := by decide +kernel
  have hlong : (StaticHuffman.stream Stored.pairs).length = 578 := by decide +kernel
  have hcall := Stored.fast_compressBlock 1 Stored.pairs
  rw [hbound] at hcall
  refine ⟨Stored.fast_documented, _, hcall, by rw [List.length_take, hlong]; decide, hlong, ?_⟩
  rw [Stored.fast_documented.delimits_take_iff 1 Stored.pairs 576, hlong]
  decide

end Pgzf
