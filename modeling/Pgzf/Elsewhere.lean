import Pgzf.CommandLine
import Pgzf.Turns

/-!
# What the program leaves alone

Whatever fails, a command changes one file at most, the one it writes to: `Elsewhere` says so of the
worlds it goes through. Without a file to write to, no file changes at all.
-/

namespace Pgzf

open Program PgzfWriter

variable {D : Deps} {world₀ world world' : World} {input target output : Option Path}

/-- The world differs from `world₀` in the file that is written to, in what has been printed and in
the failures still to come, and in nothing else. -/
structure Elsewhere (world₀ : World) (target : Option Path) (world : World) : Prop where
  files : ∀ path, target ≠ some path → world.files path = world₀.files path
  directories : world.directories = world₀.directories
  stdin : world.stdin = world₀.stdin

theorem Elsewhere.refl (world : World) (target : Option Path) : Elsewhere world target world :=
  ⟨fun _ _ => rfl, rfl, rfl⟩

theorem Elsewhere.trans {world₁ world₂ : World} (h : Elsewhere world₀ target world₁)
    (h' : Elsewhere world₁ target world₂) :
    Elsewhere world₀ target world₂ :=
  ⟨fun path hne => (h'.files path hne).trans (h.files path hne), h'.directories.trans h.directories,
    h'.stdin.trans h.stdin⟩

theorem Elsewhere.files_eq (h : Elsewhere world₀ none world) : world.files = world₀.files :=
  funext fun path => h.files path (by simp)

theorem Elsewhere.of_none (h : Elsewhere world₀ none world) (target : Option Path) :
    Elsewhere world₀ target world :=
  ⟨fun path _ => h.files path (by simp), h.directories, h.stdin⟩

theorem Elsewhere.content (h : Elsewhere world₀ target world)
    (hne : ∀ path, input = some path → target ≠ some path) :
    world.content input = world₀.content input := by
  cases input with
  | none => exact h.stdin
  | some path => rw [World.content, World.content, h.files path (hne path rfl)]

theorem Elsewhere.update (h : Elsewhere world₀ (some path) world) (content : Option Bytes) :
    Elsewhere world₀ (some path) (world.update path content) := by
  refine ⟨fun other hne => ?_, h.directories, h.stdin⟩
  have hother : other ≠ path := fun heq => hne (by rw [heq])
  exact (Function.update_of_ne hother _ _).trans (h.files other hne)

theorem Elsewhere.put (h : Elsewhere world₀ output world) (pos : Nat) (data : Bytes) :
    Elsewhere world₀ output (world.put output pos data) := by
  cases output with
  | none => exact ⟨h.files, h.directories, h.stdin⟩
  | some path => exact h.update _

theorem Elsewhere.synced (h : Elsewhere world₀ target world) (w : PgzfWriter) :
    Elsewhere world₀ target (world.synced target w) := by
  cases target with
  | none => exact h
  | some path =>
    have hfile := h.update (some w.inner.cursor.bytes)
    exact ⟨hfile.files, hfile.directories, hfile.stdin⟩

theorem Elsewhere.consumed (h : Elsewhere world₀ target world) (s : Source) :
    Elsewhere world₀ target (world.consumed input s) := by
  cases input with
  | none => exact h
  | some path => exact ⟨h.files, h.directories, h.stdin⟩

/-! ### Operations -/

/-- Whichever way a command ends, it has left the rest alone. -/
abbrev LeavesAlone (target : Option Path) {α : Type} (m : Cmd α) : Prop :=
  ∀ world₀, Keeps (Elsewhere world₀ target) m

theorem leavesAlone_pure {α : Type} (target : Option Path) (a : α) : LeavesAlone target (pure a) :=
  fun _ => keeps_pure _ a

theorem leavesAlone_throw {α : Type} (target : Option Path) (e : Exit) :
    LeavesAlone target (throw e : Cmd α) :=
  fun _ => keeps_throw _ e

theorem LeavesAlone.bind {α β : Type} {m : Cmd α} {f : α → Cmd β} (hm : LeavesAlone target m)
    (hf : ∀ a, LeavesAlone target (f a)) : LeavesAlone target (m >>= f) :=
  fun world₀ => (hm world₀).bind fun a => hf a world₀

theorem LeavesAlone.of_none {α : Type} {m : Cmd α} (h : LeavesAlone none m) :
    LeavesAlone target m := by
  intro world₀ world hworld
  have hend := h world world (.refl world none)
  cases hrun : m world with
  | ok a world' =>
    rw [hrun] at hend
    exact hworld.trans (hend.of_none target)
  | error e world' =>
    rw [hrun] at hend
    exact hworld.trans (hend.of_none target)

theorem LeavesAlone.ite {α : Type} {c : Prop} [Decidable c] {m m' : Cmd α}
    (hm : LeavesAlone target m) (hm' : LeavesAlone target m') :
    LeavesAlone target (if c then m else m') := by
  by_cases hc : c
  · rwa [if_pos hc]
  · rwa [if_neg hc]

theorem leavesAlone_get (target : Option Path) : LeavesAlone target (get : Cmd World) :=
  fun _ => keeps_get _

theorem leavesAlone_tickInput (target : Option Path) : LeavesAlone target tickInput := by
  intro world₀ world h
  obtain ⟨files, directories, stdin, stdout, reports, inputFaults, outputFaults⟩ := world
  rcases inputFaults with _ | ⟨_ | e, rest⟩
  · exact h
  · exact ⟨h.files, h.directories, h.stdin⟩
  · exact ⟨h.files, h.directories, h.stdin⟩

theorem leavesAlone_tickOutput (target : Option Path) : LeavesAlone target tickOutput := by
  intro world₀ world h
  obtain ⟨files, directories, stdin, stdout, reports, inputFaults, outputFaults⟩ := world
  rcases outputFaults with _ | ⟨_ | e, rest⟩
  · exact h
  · exact ⟨h.files, h.directories, h.stdin⟩
  · exact ⟨h.files, h.directories, h.stdin⟩

theorem leavesAlone_openFile (target : Option Path) (path : Path) :
    LeavesAlone target (openFile path) :=
  (leavesAlone_tickInput target).bind fun _ => (leavesAlone_get target).bind fun _ =>
    (leavesAlone_throw target _).ite (leavesAlone_pure target _)

theorem leavesAlone_createFile (path : Path) : LeavesAlone (some path) (createFile path) :=
  (leavesAlone_tickOutput _).bind fun _ => (leavesAlone_get _).bind fun _ =>
    (leavesAlone_throw _ _).ite <| (leavesAlone_throw _ _).ite fun _ _ h => h.update _

theorem leavesAlone_readInput (target input : Option Path) (pos n : Nat) :
    LeavesAlone target (readInput input pos n) :=
  (leavesAlone_tickInput target).bind fun _ => (leavesAlone_get target).bind fun _ =>
    leavesAlone_pure target _

theorem leavesAlone_writeOutput (output : Option Path) (pos : Nat) (data : Bytes) :
    LeavesAlone output (writeOutput output pos data) := by
  intro world₀ world h
  have htick := leavesAlone_tickOutput output world₀ world h
  rw [writeOutput]
  cases hrun : tickOutput world with
  | ok u mid =>
    rw [hrun] at htick
    exact htick.put pos data
  | error exit mid =>
    rw [hrun] at htick
    exact htick.put pos _

theorem LeavesAlone.of_ok {α : Type} {m : Cmd α} (h : LeavesAlone target m) {a : α}
    (hrun : m world = .ok a world') : Elsewhere world target world' :=
  (h world).of_ok (.refl world target) hrun

/-! ### Failures -/

def Broken (faults : List (Option WriteFault)) : Prop := ∃ fault, some fault ∈ faults

theorem not_broken_nil : ¬ Broken [] := fun ⟨_, h⟩ => absurd h List.not_mem_nil

theorem Broken.of_suffix {faults faults' : List (Option WriteFault)} (h : Broken faults')
    (hsuffix : faults' <:+ faults) :
    Broken faults :=
  h.imp fun _ he => hsuffix.mem he

def World.Spends (world world' : World) : Prop :=
  ∃ faults, world' = { world with outputFaults := faults } ∧ faults <:+ world.outputFaults

theorem tickOutput_ends (world : World) :
    Post (fun _ world' => world.Spends world')
      (fun exit world' => world.Spends world' ∧ (∃ e, exit = .error e) ∧ Broken world.outputFaults)
        (tickOutput world) := by
  obtain ⟨files, directories, stdin, stdout, reports, inputFaults, outputFaults⟩ := world
  rcases outputFaults with _ | ⟨_ | e, rest⟩
  · exact ⟨[], rfl, List.suffix_refl _⟩
  · exact ⟨rest, rfl, List.suffix_cons _ _⟩
  · exact ⟨⟨rest, rfl, List.suffix_cons _ _⟩, ⟨_, rfl⟩, e, List.mem_cons_self⟩

def World.Creatable (world : World) (path : Path) : Prop :=
  path ≠ [] ∧ world.hasDirectory path = true ∧ world.isDirectory path = false

instance (world : World) (path : Path) : Decidable (world.Creatable path) :=
  inferInstanceAs (Decidable (_ ∧ _))

theorem World.Creatable.of_directories {path : Path} (h : world.Creatable path)
    (hdirectories : world'.directories = world.directories) : world'.Creatable path := by
  rw [World.Creatable, World.hasDirectory, World.isDirectory, hdirectories]
  exact h

theorem createFile_ends (path : Path) (world : World) :
    Post (fun _ world' => world.Creatable path ∧ ∃ mid, world.Spends mid ∧
      world' = mid.update path (some []))
      (fun exit world' => world.Spends world' ∧ (∃ e, exit = .error e) ∧
        (Broken world.outputFaults ∨ ¬ world.Creatable path)) (createFile path world) := by
  apply ((tickOutput_ends world).mono (fun _ _ h => h)
    fun _ _ h => ⟨h.1, h.2.1, .inl h.2.2⟩).bind
  intro _ mid hmid
  have hback : mid.Creatable path → world.Creatable path := fun h =>
    h.of_directories (by obtain ⟨faults, rfl, -⟩ := hmid; rfl)
  have hthere : world.Creatable path → mid.Creatable path := fun h =>
    h.of_directories (by obtain ⟨faults, rfl, -⟩ := hmid; rfl)
  rw [bind_ok (get_apply _)]
  apply Post.ite
  · intro hnone
    refine ⟨hmid, ⟨_, rfl⟩, .inr fun h => ?_⟩
    simp [(hthere h).1, (hthere h).2.1] at hnone
  · intro hname
    rw [Bool.or_eq_true, not_or] at hname
    apply Post.ite
    · intro hdirectory
      exact ⟨hmid, ⟨_, rfl⟩, .inr fun h => absurd hdirectory (by simp [(hthere h).2.2])⟩
    · intro hdirectory
      exact ⟨hback ⟨by simpa using hname.1, by simpa using hname.2, by simpa using hdirectory⟩,
        mid, hmid, rfl⟩

theorem writeOutput_ends (output : Option Path) (pos : Nat) (data : Bytes) (world : World) :
    Post (fun _ world' => ∃ mid, world.Spends mid ∧ world' = mid.put output pos data)
      (fun exit world' => (∃ e, exit = .error e) ∧ Broken world.outputFaults ∧
        ∃ mid part, world.Spends mid ∧ part <+: data ∧ world' = mid.put output pos part)
      (writeOutput output pos data world) := by
  have htick := tickOutput_ends world
  rw [writeOutput]
  cases hrun : tickOutput world with
  | ok u mid =>
    rw [hrun] at htick
    exact ⟨mid, htick, rfl⟩
  | error exit mid =>
    rw [hrun] at htick
    exact ⟨htick.2.1, htick.2.2, mid, _, htick.1,
      (List.take_prefix _ _).trans (List.dropLast_prefix _), rfl⟩

structure Removed (path : Path) (world world' : World) : Prop where
  files : world'.files = Function.update world.files path none ∨ world'.files = world.files ∧
    Broken world.outputFaults
  stdout : world'.stdout = world.stdout
  inputFaults : world'.inputFaults = world.inputFaults
  outputFaults : world'.outputFaults <:+ world.outputFaults
  directories : world'.directories = world.directories

theorem removeFile_ends (path : Path) (world : World) :
    Post (fun _ world' => Removed path world world') (fun exit world' => (∃ e, exit = .error e) ∧
      Removed path world world')
      (removeFile path world) := by
  have htick : Post (fun _ world' => world.Spends world') (fun exit world' =>
      (∃ e, exit = .error e) ∧ Removed path world world') (tickOutput world) := by
    apply (tickOutput_ends world).mono (fun _ _ h => h)
    intro exit mid hmid
    obtain ⟨⟨faults, rfl, hsuffix⟩, hexit, hbroken⟩ := hmid
    exact ⟨hexit, .inr ⟨rfl, hbroken⟩, rfl, rfl, hsuffix, rfl⟩
  apply htick.bind
  intro _ mid hmid
  obtain ⟨faults, rfl, hsuffix⟩ := hmid
  rw [bind_ok (get_apply _)]
  cases hfile : world.files path with
  | none =>
    simp only [Option.isNone_none, if_true, throw_apply]
    exact ⟨⟨_, rfl⟩, .inl (by rw [← hfile, Function.update_eq_self]), rfl, rfl, hsuffix, rfl⟩
  | some data =>
    simp only [Option.isNone_some, Bool.false_eq_true, if_false, modify_apply]
    exact ⟨.inl rfl, rfl, rfl, hsuffix, rfl⟩

/-- A file is removed, unless that fails; the failure is not reported. -/
theorem ignore_removeFile_ends (path : Path) (world : World) :
    Post (fun _ world' => Removed path world world') (fun _ _ => False)
      (ignore (removeFile path) world) := by
  have hremove := removeFile_ends path world
  rw [ignore]
  cases hrun : removeFile path world with
  | ok u world' =>
    rw [hrun] at hremove
    exact hremove
  | error exit world' =>
    rw [hrun] at hremove
    obtain ⟨⟨e, rfl⟩, hremoved⟩ := hremove
    exact hremoved

/-! ### Compressing -/

theorem copyBuffer_pos : 0 < copyBuffer := by decide

theorem leavesAlone_startWriter (target : Option Path) (config : PgzfConfig) :
    LeavesAlone target (startWriter target config) :=
  fun world₀ world h => by
    rw [startWriter]
    cases PgzfWriter.withConfig (world.newSink target) config with
    | ok _ w => exact h.synced w
    | error fault w => exact h.synced w

theorem leavesAlone_onWriter {α : Type} (target : Option Path) (w : PgzfWriter)
    (m : Prog PgzfWriter α) :
    LeavesAlone target (onWriter target w m) := by
  intro world₀ world h
  rw [onWriter]
  cases m w with
  | ok a w' => exact h.synced w'
  | error fault w' => exact h.synced w'

/-- By induction on the turns. -/
theorem leavesAlone_copyInto (input target : Option Path) (turns pos : Nat) (w : PgzfWriter) :
    LeavesAlone target (copyInto D input target turns pos w) := by
  induction turns generalizing pos w with
  | zero => exact leavesAlone_throw target _
  | succ turns ih =>
    apply (leavesAlone_readInput target input pos copyBuffer).bind
    intro buf
    apply (leavesAlone_pure target w).ite
    exact (leavesAlone_onWriter target w _).bind fun answer => ih _ answer.2

theorem leavesAlone_compressStream (turns : Nat) (input target : Option Path)
    (config : PgzfConfig) :
    LeavesAlone target (compressStream D turns input target config) :=
  (leavesAlone_startWriter target config).bind fun w =>
      (leavesAlone_copyInto input target turns 0 w).bind fun w =>
    (leavesAlone_onWriter target w _).bind fun _ => leavesAlone_pure target _

theorem leavesAlone_compressFile (turns : Nat) (file out : Path) (config : PgzfConfig) :
    LeavesAlone (some out) (compressFile D turns file out config) :=
  (leavesAlone_openFile _ file).bind fun _ => (leavesAlone_createFile out).bind fun _ =>
    (leavesAlone_compressStream turns (some file) (some out) config).bind fun _ =>
      leavesAlone_pure _ _

theorem leavesAlone_compressStdin (turns : Nat) (output : Option Path) (config : PgzfConfig) :
    LeavesAlone output (compressStdin D turns output config) := by
  apply (leavesAlone_compressStream turns none none config).of_none.bind
  intro data
  cases output with
  | none => exact leavesAlone_writeOutput none 0 data
  | some path =>
    exact (leavesAlone_createFile path).bind fun _ => leavesAlone_writeOutput (some path) 0 data

/-! ### Decompressing -/

theorem leavesAlone_onReader {α : Type} (target input : Option Path) (exit : Fault → Exit)
    (r : PgzfReader D) (m : Prog (PgzfReader D) α) :
    LeavesAlone target (onReader input exit r m) := by
  intro world₀ world h
  rw [onReader]
  cases m (world.attached input r) with
  | ok a r' => exact h.consumed r'.inner
  | error fault r' => exact h.consumed r'.inner

/-- By induction on the turns. -/
theorem leavesAlone_copyOut (limit : Option Nat) (input output : Option Path) (turns done : Nat)
    (r : PgzfReader D) :
    LeavesAlone output (copyOut limit input output turns done r) := by
  induction turns generalizing done r with
  | zero => exact leavesAlone_throw output _
  | succ turns ih =>
    rw [copyOut]
    cases wanted limit done with
    | none => exact leavesAlone_pure output _
    | some n =>
      apply (leavesAlone_onReader output input .ofIo r _).bind
      intro answer
      apply (leavesAlone_pure output _).ite
      exact (leavesAlone_writeOutput output done answer.1).bind fun _ => ih _ answer.2

theorem leavesAlone_seekFirst (target input : Option Path) (r : PgzfReader D)
    (seekByte : Option Nat) :
    LeavesAlone target (seekFirst input r seekByte) := by
  cases seekByte with
  | none => exact leavesAlone_pure target _
  | some offset =>
    exact (leavesAlone_onReader target input .ofPgzf r _).bind fun _ => leavesAlone_pure target _

theorem leavesAlone_createOutput (output : Option Path) :
    LeavesAlone output (createOutput output) := by
  cases output with
  | none => exact leavesAlone_pure none _
  | some path => exact leavesAlone_createFile path

theorem leavesAlone_decompressStream (turns : Nat) (input : Option Path) (r : PgzfReader D)
    (output : Option Path) (seekByte limit : Option Nat) :
    LeavesAlone output (decompressStream turns input r output seekByte limit) := by
  apply (leavesAlone_seekFirst output input r seekByte).bind
  intro r
  exact (leavesAlone_createOutput output).bind fun _ =>
    leavesAlone_copyOut limit input output turns 0 r

theorem leavesAlone_newReader (target input : Option Path) :
    LeavesAlone target (newReader D input) := by
  intro world₀ world h
  rw [newReader]
  cases PgzfReader.new D
      ⟨world.content input, 0, if input.isSome then world.inputFaults else []⟩ with
  | ok r s => exact h.consumed s
  | error fault s => exact h.consumed s

theorem leavesAlone_decompressFile (turns : Nat) (file : Path) (output : Option Path)
    (seekByte limit : Option Nat) (threads : Nat) :
    LeavesAlone output (decompressFile D turns file output seekByte limit threads) :=
  (leavesAlone_openFile output file).bind fun _ =>
      (leavesAlone_newReader output (some file)).bind fun _ =>
    leavesAlone_decompressStream turns (some file) _ output seekByte limit

theorem leavesAlone_decompressStdin (turns : Nat) (output : Option Path)
    (seekByte limit : Option Nat) :
    LeavesAlone output (decompressStdin D turns output seekByte limit) :=
  (leavesAlone_tickInput output).bind fun _ => (leavesAlone_newReader output none).bind fun r =>
    leavesAlone_decompressStream turns none r output seekByte limit

/-! ### Inspecting -/

theorem leavesAlone_onFile {α : Type} (target : Option Path) (file : Path) (m : Prog Source α) :
    LeavesAlone target (onFile file m) := by
  intro world₀ world h
  rw [onFile]
  cases m ⟨world.content (some file), 0, world.inputFaults⟩ with
  | ok a s => exact ⟨h.files, h.directories, h.stdin⟩
  | error fault s => exact ⟨h.files, h.directories, h.stdin⟩

theorem leavesAlone_print (target : Option Path) (file : Path) (report : Report) :
    LeavesAlone target (print file report) :=
  fun _ _ h => ⟨h.files, h.directories, h.stdin⟩

theorem leavesAlone_inspectFile (file : Path) : LeavesAlone none (inspectFile file) := by
  have hgzip : LeavesAlone none (inspectAsGzip file) := by
    apply (leavesAlone_openFile none file).bind
    intro _
    apply (leavesAlone_onFile none file inspectGzip).bind
    intro report
    cases report with
    | none => exact leavesAlone_throw none _
    | some report => exact leavesAlone_print none file report
  apply (leavesAlone_openFile none file).bind
  intro _
  apply (leavesAlone_onFile none file _).bind
  intro index
  cases index with
  | ok index => exact leavesAlone_print none file _
  | error e => exact hgzip

/-! ### Files -/

theorem leavesAlone_each {one : Path → Cmd Unit} {files : List Path}
    (h : ∀ file ∈ files, LeavesAlone target (one file)) :
    LeavesAlone target (Cli.each one files) := by
  induction files with
  | nil => exact leavesAlone_pure target _
  | cons file rest ih =>
    exact (h file List.mem_cons_self).bind fun _ => ih fun f hf => h f (List.mem_cons_of_mem _ hf)

theorem Cli.leavesAlone_decompressOne {cli : Cli} (hstdout : cli.stdout = true)
    (houtput : cli.output = none) (turns : Nat) (file : Path) :
    LeavesAlone none (cli.decompressOne D turns file) := by
  have hnone : cli.decompressOutput file = none := by
    simp only [Cli.decompressOutput, houtput, hstdout, if_true]
  rw [Cli.decompressOne, hnone]
  simp only [Option.isSome_none, Bool.and_false, Bool.false_eq_true, if_false]
  exact (leavesAlone_decompressFile turns file none cli.seekByte cli.limit cli.threads).bind
      fun _ =>
    leavesAlone_pure none _

/-- The world a run leaves, however it ends. -/
def endWorld {α : Type} : EStateM.Result Exit World α → World
  | .ok _ world => world
  | .error _ world => world

end Pgzf
