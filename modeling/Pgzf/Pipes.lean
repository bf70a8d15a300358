import Pgzf.Archives
import Pgzf.CompressedFiles

/-!
# Pipes

Without files the data comes from standard input, and with `-c` it goes to standard output. What one
run prints is what the next one reads: the archives of a list of files come out of the pipe as their
data, one behind the other.
-/

namespace Pgzf

open Program PgzfReader PgzfWriter

variable {D : Deps} {world world' : World} {config : PgzfConfig} {data : Bytes} {turns : Nat}
  {cli : Cli} {output : Option Path}

structure Quiet (world : World) : Prop where
  inputFaults : world.inputFaults = []
  outputFaults : world.outputFaults = []

theorem Quiet.not_broken (h : Quiet world) : ¬ Broken world.outputFaults := by
  rw [h.outputFaults]
  exact not_broken_nil

theorem Quiet.not_refuses (h : Quiet world)
    (hplace : ∀ path, output = some path → world.Creatable path) :
    ¬ world.Refuses output := by
  rintro (hbroken | ⟨path, hpath, hnot⟩)
  · exact h.not_broken hbroken
  · exact hnot (hplace path hpath)

theorem Calm.quiet {target : Option Path} (h : Calm world target world') : Quiet world' :=
  ⟨h.inputFaults, h.outputFaults⟩

theorem Extracted.quiet (h : Extracted world output data world') (hquiet : Quiet world) :
    Quiet world' := by
  refine ⟨h.inputFaults.trans hquiet.inputFaults, ?_⟩
  have hsuffix := h.outputFaults
  rw [hquiet.outputFaults] at hsuffix
  exact List.suffix_nil.mp hsuffix

/-! ### From standard input -/

end Pgzf
