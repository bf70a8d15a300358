import Pgzf.DecompressedFiles
import Pgzf.Forward

/-!
# `-d` on files that may hold anything

A file that is to be decompressed may be damaged, cut or made up, and every operation on it may
fail. What `-d` writes comes from the front of what can be read out of the file, block after block,
and the file is not removed unless that has come to its end, or to the limit of `-q`.
-/

namespace Pgzf

open Program PgzfReader

variable {D : Deps} {file : Bytes} {world world' : World} {input output : Option Path} {size : Nat}
  {faults : List (Option IoError)} {V : Bytes → Bool → Prop}

/-! ### What is written -/

/-- From one world to the next, `data` has been written,
and the files that are not written to have not changed. -/
structure Added (world : World) (output : Option Path) (data : Bytes) (world' : World) : Prop where
  written : world'.written output = world.written output ++ data
  present : ∀ path, output = some path → (world.files path).isSome → (world'.files path).isSome
  elsewhere : Elsewhere world output world'

theorem Added.trans {world₁ world₂ : World} {data data' : Bytes}
    (h : Added world output data world₁) (h' : Added world₁ output data' world₂) :
    Added world output (data ++ data') world₂ :=
  ⟨by rw [h'.written, h.written, List.append_assoc],
    fun path hpath hfile => h'.present path hpath (h.present path hpath hfile),
      h.elsewhere.trans h'.elsewhere⟩

theorem Wrote.added {data : Bytes} (h : Wrote world output data world') :
    Added world output data world' :=
  ⟨h.written, h.present, h.elsewhere⟩

/-- Only failures of operations that read have been used up. -/
def World.Consumes (world world' : World) : Prop :=
  ∃ faults, world' = { world with inputFaults := faults }

theorem World.Consumes.added (h : world.Consumes world') (output : Option Path) :
    Added world output [] world' := by
  obtain ⟨faults, rfl⟩ := h
  refine ⟨?_, fun _ _ hfile => hfile, fun _ _ => rfl, rfl, rfl⟩
  rw [List.append_nil]
  cases output <;> rfl

theorem Added.refl (world : World) (output : Option Path) : Added world output [] world :=
  World.Consumes.added ⟨world.inputFaults, rfl⟩ output

/-! ### Operations -/

structure Offers (world : World) (input : Option Path) (file : Bytes)
    (faults : List (Option IoError)) : Prop where
  content : ∀ path, input = some path → world.files path = some file
  faults_suffix : ∀ path, input = some path → world.inputFaults <:+ faults

theorem Supplies.attached {r : PgzfReader D} (h : Supplies D file size faults V r)
    (hoffers : Offers world input file faults) :
    Supplies D file size faults V (world.attached input r) := by
  cases input with
  | none => exact h
  | some path =>
    rw [World.attached, World.content, hoffers.content path rfl, Option.getD_some]
    exact h.resumed (hoffers.faults_suffix path rfl)

theorem Offers.consumed (h : Offers world input file faults) {s : Source}
    (hs : s.faults <:+ faults) :
    Offers (world.consumed input s) input file faults := by
  cases input with
  | none => exact h
  | some path => exact ⟨h.content, fun _ _ => hs⟩

variable (D file size faults) in
def Front (seekByte : Option Nat) (out : Bytes) : Prop :=
  ∃ data ended, Readout D file size faults seekByte data ended ∧ out <+: data

variable (D file size faults) in
def Whole (seekByte limit : Option Nat) (out : Bytes) : Prop :=
  ∃ data ended, Readout D file size faults seekByte data ended ∧ out <+: data ∧
    (out = data ∧ ended = true ∨ limit = some out.length)

theorem Whole.front {seekByte limit : Option Nat} {out : Bytes}
    (h : Whole D file size faults seekByte limit out) :
    Front D file size faults seekByte out := by
  obtain ⟨data, ended, hdata, hprefix, -⟩ := h
  exact ⟨data, ended, hdata, hprefix⟩

variable {Q Q' : Bytes → Prop}

/-- `Q` holds of what the output has in it, or of what
has been printed, and no other file has changed. -/
structure Puts (Q : Bytes → Prop) (world : World) (output : Option Path) (world' : World) :
    Prop where
  delivered : ∃ out, Q out ∧ (∀ path, output = some path → world'.files path = some out) ∧
    (output = none → world'.stdout = world.stdout ++ out)
  elsewhere : Elsewhere world output world'

theorem Puts.mono (h : Puts Q world output world') (hQ : ∀ out, Q out → Q' out) :
    Puts Q' world output world' := by
  obtain ⟨⟨out, hout, hrest⟩, helsewhere⟩ := h
  exact ⟨⟨out, hQ out hout, hrest⟩, helsewhere⟩

structure Untouched (world world' : World) : Prop where
  files : world'.files = world.files
  directories : world'.directories = world.directories
  stdout : world'.stdout = world.stdout
  stdin : world'.stdin = world.stdin

theorem Untouched.trans {world₁ world₂ : World} (h : Untouched world world₁)
    (h' : Untouched world₁ world₂) :
    Untouched world world₂ :=
  ⟨h'.files.trans h.files, h'.directories.trans h.directories, h'.stdout.trans h.stdout,
    h'.stdin.trans h.stdin⟩

theorem Untouched.elsewhere (h : Untouched world world') (output : Option Path) :
    Elsewhere world output world' :=
  ⟨fun path _ => congrFun h.files path, h.directories, h.stdin⟩

variable {s : Source} {index : Option PgzfIndex} (threads : Nat)

/-- A file and its place are left as they are, or a front of what can be read out of the file is in
its place; the file is gone only behind all of that, or behind as much as was asked for. -/
def Vetted (D : Deps) (cli : Cli) (faults : List (Option IoError)) (_path : Path)
    (file place file' place' : Option Bytes) : Prop :=
  file' = file ∧ place' = place ∨
    ∃ archive out, file = some archive ∧ place' = some out ∧
      (file' = file ∧ Front D archive (max cli.threads 1) faults cli.seekByte out ∨
        cli.keep = false ∧ file' = none ∧
          Whole D archive (max cli.threads 1) faults cli.seekByte cli.limit out)

variable {cli : Cli} {path : Path}

theorem Untouched.treated (h : Untouched world world') (path : Path) :
    Treated (Vetted D cli faults) [path] world.files world'.files :=
  treated_singleton (.inl ⟨congrFun h.files _, congrFun h.files _⟩) fun other _ _ =>
    congrFun h.files other

theorem Puts.treated (hfile : world.files path = some file) (hne : decompressName path ≠ path)
    (h : Puts (Front D file (max cli.threads 1) faults cli.seekByte) world
      (some (decompressName path)) world') :
    Treated (Vetted D cli faults) [path] world.files world'.files := by
  have hothers : ∀ other, other ≠ decompressName path → world'.files other = world.files other :=
    fun other hother =>
      h.elsewhere.files other fun heq => hother (Option.some.inj heq).symm
  obtain ⟨out, hout, hplace, -⟩ := h.delivered
  exact treated_singleton
    (.inr ⟨file, out, hfile, hplace _ rfl, .inl ⟨hothers path hne.symm, hout⟩⟩)
    fun other _ hother => hothers other hother

theorem Treated.removed {mid : World} (hkeep : cli.keep = false)
    (hfile : world.files path = some file) (hne : decompressName path ≠ path)
    (h : Puts (Whole D file (max cli.threads 1) faults cli.seekByte cli.limit) world
      (some (decompressName path)) mid)
    (hremoved : Removed path mid world') :
    Treated (Vetted D cli faults) [path] world.files world'.files := by
  rcases hremoved.files with hgone | ⟨hstays, -⟩
  · have hothers : ∀ other, other ≠ path → world'.files other = mid.files other :=
      fun other hother => by
        rw [hgone]
        exact Function.update_of_ne hother _ _
    refine treated_singleton ?_ fun other hother hother' => ?_
    · obtain ⟨out, hout, hplace, -⟩ := h.delivered
      refine .inr ⟨file, out, hfile, ?_,
        .inr ⟨hkeep, by rw [hgone]; exact Function.update_self _ _ _, hout⟩⟩
      rw [hothers _ hne]
      exact hplace _ rfl
    · rw [hothers other hother]
      exact h.elsewhere.files other fun heq => hother' (Option.some.inj heq).symm
  · have htreated : Treated (Vetted D cli faults) [path] world.files mid.files :=
      (h.mono fun _ hout => hout.front).treated hfile hne
    rwa [← hstays] at htreated

def Cli.inputs (cli : Cli) : List (Option Path) :=
  if cli.files.isEmpty then [none] else cli.files.map some

/-- All that can be read out of an input, or as much as is asked for. -/
def PrintsWhole (D : Deps) (cli : Cli) (world : World) (out : Bytes) : Option Path → Prop
  | none => Whole D world.stdin defaultReadahead [] cli.seekByte cli.limit out
  | some path => ∃ file, world.files path = some file ∧
      Whole D file (max cli.threads 1) world.inputFaults cli.seekByte cli.limit out

def PrintsFront (D : Deps) (cli : Cli) (world : World) (out : Bytes) : Option Path → Prop
  | none => out = [] ∨ Front D world.stdin defaultReadahead [] cli.seekByte out
  | some path => out = [] ∨ ∃ file, world.files path = some file ∧
      Front D file (max cli.threads 1) world.inputFaults cli.seekByte out

def PrintsAll (D : Deps) (cli : Cli) (world : World) (inputs : List (Option Path))
    (printed : Bytes) : Prop :=
  ∃ outs : List Bytes, List.Forall₂ (fun input out => PrintsWhole D cli world out input) inputs
    outs ∧ printed = outs.flatten

/-- The inputs in front of one have been printed, and what there is of that one comes last. -/
def PrintsSome (D : Deps) (cli : Cli) (world : World) (inputs : List (Option Path))
    (printed : Bytes) : Prop :=
  ∃ done input rest front out, inputs = done ++ input :: rest ∧ PrintsAll D cli world done front ∧
    PrintsFront D cli world out input ∧ printed = front ++ out

section Printing

variable {start : World} {inputs : List (Option Path)} {input : Option Path} {front out : Bytes}

theorem PrintsAll.cons (hout : PrintsWhole D cli world out input)
    (h : PrintsAll D cli world inputs front) :
    PrintsAll D cli world (input :: inputs) (out ++ front) := by
  obtain ⟨outs, houts, rfl⟩ := h
  exact ⟨out :: outs, .cons hout houts, rfl⟩

theorem PrintsSome.cons (hout : PrintsWhole D cli world out input)
    (h : PrintsSome D cli world inputs front) :
    PrintsSome D cli world (input :: inputs) (out ++ front) := by
  obtain ⟨done, last, rest, before, behind, rfl, hdone, hlast, rfl⟩ := h
  exact ⟨input :: done, last, rest, out ++ before, behind, rfl, hdone.cons hout, hlast,
    (List.append_assoc _ _ _).symm⟩

theorem PrintsFront.stops (hout : PrintsFront D cli world out input) (inputs : List (Option Path)) :
    PrintsSome D cli world (input :: inputs) out :=
  ⟨[], input, inputs, [], out, rfl, ⟨[], .nil, rfl⟩, hout, rfl⟩

end Printing

end Pgzf
