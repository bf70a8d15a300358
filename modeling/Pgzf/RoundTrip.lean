import Pgzf.Limits

/-!
# The round trip

A payload goes through the writer, block by block and group by group, and comes back through the
reader, batch by batch, unchanged.
-/

namespace Pgzf

open PgzfReader BlockCursor

variable {D : Deps} {config : PgzfConfig} {bufs : List Bytes}

/-- Reading a written file from the front delivers the payload in order, and the first empty answer
comes exactly when all of it has been delivered. -/
theorem sequential_round_trip (hlimits : WithinLimits D (2 ^ 30) config bufs.flatten)
    (hcodec : Codec D config bufs.flatten) (hne : bufs.flatten ≠ []) (capacity : Nat)
    (cacheLimit : Option Nat) {size : Nat} (hsize : 0 < size)
    (hfit : (config.blocksOf bufs.flatten).length + size < 2 ^ 64) :
    ∃ reader, Opens D config bufs reader ∧ ∀ sizes : List Nat, (∀ n ∈ sizes, 0 < n) →
      ∃ outs r', (sizes.mapM PgzfReader.read) (reader.configured size capacity cacheLimit) =
        .ok outs r' ∧
        outs.flatten <+: bufs.flatten ∧
        (∀ k out, outs[k]? = some out → (out = [] ↔ (outs.take k).flatten = bufs.flatten)) ∧
        (bufs.flatten.length ≤ sizes.length → outs.flatten = bufs.flatten) := by
  have hd := describes_written hlimits hcodec
  have hpayload := flatten_blocksOf hlimits.blockSize_pos bufs.flatten
  refine ⟨_, opens_written hlimits (by omega) hcodec.compresses hne, ?_⟩
  intro sizes hsizes
  obtain ⟨r', hrun⟩ := (sequential_configured _ capacity cacheLimit hsize hfit).reads hd hsizes
  refine ⟨_, r', hrun, ?_, ?_, ?_⟩
  · have hprefix := flatten_readAll (config.blocksOf bufs.flatten) 0 sizes
    rwa [List.drop_zero, hpayload] at hprefix
  · intro k out hout
    rw [readAll_eq_nil_iff hsizes hout, List.drop_zero, hpayload]
  · intro hlen
    rw [flatten_readAll_of_length_le hsizes (by rwa [List.drop_zero, hpayload]),
      List.drop_zero, hpayload]

theorem sequential_round_trip_sample :
    ∃ reader, Opens Stored.deps Stored.sampleConfig Stored.sampleBufs reader ∧
      ∃ outs r', ((List.replicate 7 3).mapM PgzfReader.read) (reader.configured 2 64 none) =
        .ok outs r' ∧
        outs.flatten = [97, 98, 99, 100, 101, 102, 103] := by
  obtain ⟨reader, hopens, hreads⟩ :=
    sequential_round_trip Stored.sample_withinLimits Stored.sample_codec (by decide) 64
      none (show 0 < 2 by decide) (by decide)
  obtain ⟨outs, r', hrun, -, -, hall⟩ := hreads (List.replicate 7 3) (by decide)
  exact ⟨reader, hopens, outs, r', hrun, hall (by decide)⟩

end Pgzf
