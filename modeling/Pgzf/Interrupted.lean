import Pgzf.Filling
import Pgzf.Torn
import Pgzf.Unfaulted

/-!
# Runs that are interrupted

A compression may fail at any of its operations: the disk is full, or a file cannot be read. What it
leaves in its output is what a complete run has in it at some moment, between two operations or
inside a write. The file that was to be compressed is still there; but `-d` on what has been left
may write over it.
-/

namespace Pgzf

open Program PgzfReader PgzfWriter

variable {D : Deps} {world world' : World} {input target : Option Path} {config : PgzfConfig}
  {data content : Bytes} {turns : Nat} {cli : Cli} {w w' steady : PgzfWriter}

/-! ### What is left -/

theorem World.Spends.elsewhere (h : world.Spends world') : Elsewhere world none world' := by
  obtain ⟨faults, rfl, -⟩ := h
  exact ⟨fun _ _ => rfl, rfl, rfl⟩

structure Archived (D : Deps) (cli : Cli) (path : Path) (data : Bytes)
    (files files' : Path → Option Bytes) : Prop where
  archive : files' (gzExtension path) = some (archiveOf D cli.config data)
  source : files' path = files path ∨ cli.keep = false ∧ files' path = none

/-- Only the file and its archive have changed. -/
def OnlyAt (path : Path) (files files' : Path → Option Bytes) : Prop :=
  ∀ other, other ≠ path → other ≠ gzExtension path → files' other = files other

def OnlyAmong (paths : List Path) (files files' : Path → Option Bytes) : Prop :=
  ∀ other, other ∉ paths → other ∉ paths.map gzExtension → files' other = files other

theorem OnlyAmong.cons {path : Path} {rest : List Path} {files mid files' : Path → Option Bytes}
    (hfirst : OnlyAt path files mid) (h : OnlyAmong rest mid files') :
    OnlyAmong (path :: rest) files files' := by
  intro other hother hother'
  rw [List.mem_cons, not_or] at hother
  rw [List.map_cons, List.mem_cons, not_or] at hother'
  rw [h other hother.2 hother'.2, hfirst other hother.1 hother'.1]

theorem OnlyAmong.archived {path : Path} {rest : List Path} (hseparate : Separate (path :: rest))
    {files mid files' : Path → Option Bytes} (hfirst : Archived D cli path data files mid)
    (h : OnlyAmong rest mid files') :
    Archived D cli path data files files' := by
  obtain ⟨⟨hpath, hpath'⟩, hname, hname'⟩ := hseparate.not_mem
  refine ⟨(h _ hname hname').trans hfirst.archive, ?_⟩
  rw [h _ hpath hpath']
  exact hfirst.source

section Small

variable {file out : Path} {w : PgzfWriter}

end Small

def Stored.compressTwoCli : Cli := { keep := true, files := [[97], [98]] }

def Stored.holding (faults : List (Option WriteFault)) : PgzfWriter :=
  { started ⟨⟨[], 0⟩, faults, []⟩ Stored.compressTwoCli.config with
    pendingBlocks := [⟨[1, 2, 3], .beg⟩], blocksInGroup := 1, gcPending := true }

def Stored.flushed (faults : List (Option WriteFault)) : EStateM.Result Fault PgzfWriter Sink :=
  (do
    flushGroup Stored.deps
    return (← get).inner : Prog PgzfWriter Sink) (Stored.holding faults)

end Pgzf
