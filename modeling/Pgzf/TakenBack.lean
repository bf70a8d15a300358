import Pgzf.Interrupted

/-!
# Taking back an interrupted run

`-d` on the archives that an interrupted compression has left. A complete one gives its file back.
One that has been begun is refused, or what has been finished of it takes the place of the file,
which was still whole: the rest of the file is lost.
-/

namespace Pgzf

open Program PgzfReader PgzfWriter

variable {D : Deps} {world : World} {config : PgzfConfig} {data content : Bytes} {turns : Nat}
  {cli : Cli}

theorem Separate.sublist {paths some : List Path} (h : Separate paths) (hsub : some.Sublist paths) :
    Separate some :=
  ⟨h.nodup.sublist hsub, fun p hp q hq => h.apart p (hsub.subset hp) q (hsub.subset hq)⟩

section Undo

variable {done : List Path} {path : Path} {threads : Nat} {payload : Path → Bytes} {mid : World}

end Undo

end Pgzf
