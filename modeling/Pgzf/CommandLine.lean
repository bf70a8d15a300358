import Mathlib.Data.List.DropRight
import Mathlib.Logic.Function.Basic
import Pgzf.Inspect
import Pgzf.Reader
import Pgzf.Writer

/-!
# The program (`main.rs`)

`pgzf` compresses, decompresses and inspects files by name. A `World` is what it works on: the
files, the standard streams with the reports of `-i` beside them, and two fault patterns, one for
what it reads and one for what it writes, so that every operation may fail. A name stands for one
file, and two names for two files.

A file that is open is its name and a position; what a reader or a writer sees of it is always what
the file holds at that moment, also where both have the same file open. No file is made under the
name of a directory, or in a directory that is not there; to one that reads, a directory is no file.
The copy loops are given a number of turns.
-/

namespace Pgzf

/-- A `Path`: the bytes of its `OsStr`. -/
abbrev Path := Bytes

structure World where
  files : Path → Option Bytes
  directories : Path → Bool
  stdin : Bytes
  stdout : Bytes
  reports : List (Path × Report)
  inputFaults : List (Option IoError)
  outputFaults : List (Option WriteFault)

/-- What `main` returns as an error. -/
inductive CliError where
  | notFound
  | isDirectory
  | io (e : IoError)
  | pgzf (e : PgzfError)
  /-- The text is the name and `: file exists, use -f to overwrite`. -/
  | fileExists (out : Path)
  | text (message : String)
  deriving DecidableEq, Repr

/-- The ways `main` ends without a value. -/
inductive Exit where
  | error (e : CliError)
  | panic (message : String)
  | diverges
  deriving DecidableEq, Repr

/-- The `?` operator on a `PgzfError`. -/
def Exit.ofPgzf : Fault → Exit
  | .error e => .error (.pgzf e)
  | .panic message => .panic message
  | .diverges => .diverges

/-- The `?` operator on a `std::io::Error`. -/
def Exit.ofIo : Fault → Exit
  | .error e => .error (.io e.toIo)
  | .panic message => .panic message
  | .diverges => .diverges

abbrev Cmd (α : Type) := EStateM Exit World α

/-! ### Names -/

/-- `.gz` -/
def gzSuffix : Bytes := [0x2E, 0x67, 0x7A]

/-- `.out` -/
def outSuffix : Bytes := [0x2E, 0x6F, 0x75, 0x74]

def gzExtension (path : Path) : Path := path ++ gzSuffix

/-- `to_str` gives a string: the name is UTF-8. -/
def isUtf8 (path : Path) : Bool := ByteArray.validateUTF8 ⟨path.toArray⟩

def stripGzExtension (path : Path) : Option Path :=
  if isUtf8 path ∧ gzSuffix.isSuffixOf path then some (path.take (path.length - gzSuffix.length))
    else none

/-- The name `-d` gives to what a file holds. -/
def decompressName (path : Path) : Path := (stripGzExtension path).getD (path ++ outSuffix)

/-! ### Operations -/

def tickInput : Cmd Unit := fun world =>
  match world.inputFaults with
  | [] => .ok () world
  | none :: rest => .ok () { world with inputFaults := rest }
  | some e :: rest => .error (.error (.io e)) { world with inputFaults := rest }

def tickOutput : Cmd Unit := fun world =>
  match world.outputFaults with
  | [] => .ok () world
  | none :: rest => .ok () { world with outputFaults := rest }
  | some fault :: rest => .error (.error (.io fault.error)) { world with outputFaults := rest }

def World.update (world : World) (path : Path) (content : Option Bytes) : World :=
  { world with files := Function.update world.files path content }

/-- What an open file holds; standard input where there is no name. -/
def World.content (world : World) : Option Path → Bytes
  | some path => (world.files path).getD []
  | none => world.stdin

/-- `File::open`. -/
def openFile (path : Path) : Cmd Unit := do
  tickInput
  if ((← get).files path).isNone then
    throw (.error .notFound)

/-- `/` -/
def slash : UInt8 := 0x2F

/-- The name is that of a directory, or can be no other's. -/
def World.isDirectory (world : World) (path : Path) : Bool :=
  path.getLast? = some slash || world.directories path

/-- The directory of the name is there; a name without one is in the current directory. -/
def World.hasDirectory (world : World) (path : Path) : Bool :=
  let directory := path.rdropWhile (· ≠ slash)
  directory.isEmpty || world.directories directory

/-- `File::create`: a file that is there is cut to nothing. -/
def createFile (path : Path) : Cmd Unit := do
  tickOutput
  let world ← get
  if path.isEmpty || !world.hasDirectory path then
    throw (.error .notFound)
  else if world.isDirectory path then
    throw (.error .isDirectory)
  else
    modify fun world => world.update path (some [])

/-- `Path::exists`. -/
def World.exists (world : World) (path : Path) : Bool :=
  (world.files path).isSome || world.directories path

/-- `std::fs::remove_file`. -/
def removeFile (path : Path) : Cmd Unit := do
  tickOutput
  if ((← get).files path).isNone then
    throw (.error .notFound)
  else
    modify fun world => world.update path none

/-- `let _ = ..`: an error is dropped. -/
def ignore (m : Cmd Unit) : Cmd Unit := fun world =>
  match m world with
  | .error (.error _) world' => .ok () world'
  | result => result

/-- `read` at position `pos` of an open file, or of standard input. -/
def readInput (input : Option Path) (pos n : Nat) : Cmd Bytes := do
  tickInput
  return (((← get).content input).drop pos).take n

/-- `data` at position `pos` of an open file, or behind what has been written to standard output. -/
def World.put (world : World) (output : Option Path) (pos : Nat) (data : Bytes) : World :=
  match output with
  | some path => world.update path (some (overwrite (world.content (some path)) pos data))
  | none => { world with stdout := world.stdout ++ data }

/-- How much the next operation writes before it fails. -/
def World.fits (world : World) : Nat :=
  match world.outputFaults with
  | some fault :: _ => fault.written
  | _ => 0

/-- `write_all` at position `pos` of an open file, or to standard output. -/
def writeOutput (output : Option Path) (pos : Nat) (data : Bytes) : Cmd Unit := fun world =>
  match tickOutput world with
  | .ok _ world' => .ok () (world'.put output pos data)
  | .error exit world' => .error exit (world'.put output pos (data.dropLast.take world.fits))

/-- The buffer of `io::copy`. -/
def copyBuffer : Nat := 8 * 1024

variable (D : Deps)

/-! ### Compressing -/

/-- Behind an operation of a writer: its file holds what
its sink holds. A writer in memory changes nothing. -/
def World.synced (world : World) (target : Option Path) (w : PgzfWriter) : World :=
  match target with
  | some path =>
    { world.update path (some w.inner.cursor.bytes) with outputFaults := w.inner.faults }
  | none => world

/-- A sink on a file just created, or in memory. -/
def World.newSink (world : World) : Option Path → Sink
  | some _ => ⟨⟨[], 0⟩, world.outputFaults, []⟩
  | none => ⟨⟨[], 0⟩, [], []⟩

/-- `PgzfWriter::with_config` on it. -/
def startWriter (target : Option Path) (config : PgzfConfig) : Cmd PgzfWriter := fun world =>
  match PgzfWriter.withConfig (world.newSink target) config with
  | .ok _ w => .ok w (world.synced target w)
  | .error fault w => .error (.ofPgzf fault) (world.synced target w)

/-- A call of a writer. -/
def onWriter {α : Type} (target : Option Path) (w : PgzfWriter) (m : Prog PgzfWriter α) :
    Cmd (α × PgzfWriter) := fun world =>
  match m w with
  | .ok a w' => .ok (a, w') (world.synced target w')
  | .error fault w' => .error (.ofPgzf fault) (world.synced target w')

/-- `io::copy` into a writer. -/
def copyInto (input target : Option Path) : Nat → Nat → PgzfWriter → Cmd PgzfWriter
  | 0, _, _ => throw .diverges
  | turns + 1, pos, w => do
    let buf ← readInput input pos copyBuffer
    if buf.isEmpty then
      return w
    else
      let (_, w) ← onWriter target w (PgzfWriter.write D buf)
      copyInto input target turns (pos + buf.length) w

/-- `with_config`, `io::copy` and `finish`: what the sink holds in the end. -/
def compressStream (turns : Nat) (input target : Option Path) (config : PgzfConfig) :
    Cmd Bytes := do
  let w ← startWriter target config
  let w ← copyInto D input target turns 0 w
  let (sink, _) ← onWriter target w (PgzfWriter.finish D)
  return sink.cursor.bytes

def compressFile (turns : Nat) (input output : Path) (config : PgzfConfig) : Cmd Unit := do
  openFile input
  createFile output
  let _ ← compressStream D turns (some input) (some output) config

def compressStdin (turns : Nat) (output : Option Path) (config : PgzfConfig) : Cmd Unit := do
  let data ← compressStream D turns none none config
  match output with
  | some path => do
    createFile path
    writeOutput (some path) 0 data
  | none => writeOutput none 0 data

/-! ### Decompressing -/

variable {D}

/-- The reader, on what its file holds now; one in memory has its own content. -/
def World.attached (world : World) (input : Option Path) (r : PgzfReader D) : PgzfReader D :=
  match input with
  | some path => { r with inner := ⟨world.content (some path), r.inner.pos, world.inputFaults⟩ }
  | none => r

/-- Behind an operation of a reader. -/
def World.consumed (world : World) (input : Option Path) (s : Source) : World :=
  match input with
  | some _ => { world with inputFaults := s.faults }
  | none => world

/-- A call of a reader; `exit` is the type of its errors. -/
def onReader {α : Type} (input : Option Path) (exit : Fault → Exit) (r : PgzfReader D)
    (m : Prog (PgzfReader D) α) :
    Cmd (α × PgzfReader D) := fun world =>
  match m (world.attached input r) with
  | .ok a r' => .ok (a, r') (world.consumed input r'.inner)
  | .error fault r' => .error (exit fault) (world.consumed input r'.inner)

/-- How many bytes to ask for behind the first `done`, or that it is enough: the loop of `-q` stops
at its limit, and `io::copy` asks for a whole buffer every time. -/
def wanted : Option Nat → Nat → Option Nat
  | some limit, done => if limit - done > 0 then some (min (limit - done) (64 * 1024)) else none
  | none, _ => some copyBuffer

/-- Copy what a reader delivers, up to a limit where there is one. -/
def copyOut (limit : Option Nat) (input output : Option Path) : Nat → Nat → PgzfReader D → Cmd Unit
  | 0, _, _ => throw .diverges
  | turns + 1, done, r =>
    match wanted limit done with
    | none => return ()
    | some n => do
      let (buf, r) ← onReader input .ofIo r (PgzfReader.read n)
      if buf.isEmpty then
        return ()
      else
        writeOutput output done buf
        copyOut limit input output turns (done + buf.length) r

/-- The seek of `-s`, where there is one. -/
def seekFirst (input : Option Path) (r : PgzfReader D) : Option Nat → Cmd (PgzfReader D)
  | some offset => do
    let (_, r) ← onReader input .ofPgzf r (PgzfReader.seekToByte offset)
    return r
  | none => return r

/-- What is written to: a new file, or standard output. -/
def createOutput : Option Path → Cmd Unit
  | some path => createFile path
  | none => return ()

/-- The output is created behind the seek and in front of the first read. -/
def decompressStream (turns : Nat) (input : Option Path) (r : PgzfReader D) (output : Option Path)
    (seekByte limit : Option Nat) : Cmd Unit := do
  let r ← seekFirst input r seekByte
  createOutput output
  copyOut limit input output turns 0 r

variable (D)

/-- `PgzfReader::new` on an open file, or on content in memory. -/
def newReader (input : Option Path) : Cmd (PgzfReader D) := fun world =>
  match PgzfReader.new D
      ⟨world.content input, 0, if input.isSome then world.inputFaults else []⟩ with
  | .ok r s => .ok r (world.consumed input s)
  | .error fault s => .error (.ofPgzf fault) (world.consumed input s)

def decompressFile (turns : Nat) (input : Path) (output : Option Path) (seekByte limit : Option Nat)
    (threads : Nat) :
    Cmd Unit := do
  openFile input
  let r ← newReader D (some input)
  decompressStream turns (some input) (r.withReadahead threads) output seekByte limit

/-- Standard input is read to its end first. -/
def decompressStdin (turns : Nat) (output : Option Path) (seekByte limit : Option Nat) :
    Cmd Unit := do
  tickInput
  let r ← newReader D none
  decompressStream turns none r output seekByte limit

/-! ### Inspecting -/

/-- A call on the file of that name, from its start. -/
def onFile {α : Type} (input : Path) (m : Prog Source α) : Cmd α := fun world =>
  match m ⟨world.content (some input), 0, world.inputFaults⟩ with
  | .ok a s => .ok a { world with inputFaults := s.faults }
  | .error fault s => .error (.ofIo fault) { world with inputFaults := s.faults }

def print (input : Path) (report : Report) : Cmd Unit :=
  modify fun world => { world with reports := world.reports ++ [(input, report)] }

/-- `inspect_gzip` -/
def inspectAsGzip (input : Path) : Cmd Unit := do
  openFile input
  match ← onFile input inspectGzip with
  | some report => print input report
  | none => throw (.error (.text "not a gzip file"))

def inspectFile (input : Path) : Cmd Unit := do
  openFile input
  match ← onFile input (Prog.attempt PgzfIndex.build) with
  | .ok index => print input index.report
  | .error _ => inspectAsGzip input

/-! ### `main` -/

structure Cli where
  inspect : Bool := false
  decompress : Bool := false
  stdout : Bool := false
  keep : Bool := false
  force : Bool := false
  output : Option Path := none
  threads : Nat := 8
  blockSizeMb : Nat := 1
  groupBlocks : Nat := 8000
  seekByte : Option Nat := none
  limit : Option Nat := none
  level : Nat := 6
  files : List Path := []
  deriving DecidableEq, Repr

namespace Cli

def builder (cli : Cli) : List BuilderCall :=
  [.blockSizeMb cli.blockSizeMb, .groupBlocks cli.groupBlocks, .compressionLevel cli.level]

/-- What the builder gives, where the block size does not overflow. -/
def config (cli : Cli) : PgzfConfig :=
  { PgzfConfig.default with
    blockSize := cli.blockSizeMb * 2 ^ 20
    groupBlocks := cli.groupBlocks
    compressionLevel := max 1 (min cli.level 9) }

theorem build_builder {cli : Cli} (h : cli.config.blockSize < 2 ^ 64) :
    PgzfConfig.build cli.builder = .ok cli.config := by
  have hproduct := mebibytes_of_lt h
  rw [PgzfConfig.build, builder, List.foldlM_cons, BuilderCall.apply, hproduct]
  rfl

/-- Where `-d` writes what a file holds. -/
def decompressOutput (cli : Cli) (file : Path) : Option Path :=
  match cli.output with
  | some o => some o
  | none => if cli.stdout then none else some (decompressName file)

def decompressOne (cli : Cli) (turns : Nat) (file : Path) : Cmd Unit := do
  decompressFile D turns file (cli.decompressOutput file) cli.seekByte cli.limit cli.threads
  if !cli.keep && !cli.stdout && (cli.decompressOutput file).isSome then
    ignore (removeFile file)

/-- Where a file is compressed to; `-c` goes before it. -/
def compressOutput (cli : Cli) (file : Path) : Path := cli.output.getD (gzExtension file)

def compressOne (cli : Cli) (config : PgzfConfig) (turns : Nat) (file : Path) : Cmd Unit := do
  if cli.stdout then
    openFile file
    let data ← compressStream D turns (some file) none config
    writeOutput none 0 data
  else
    let out := cli.compressOutput file
    if !cli.force && (← get).exists out then
      throw (.error (.fileExists out))
    else
      compressFile D turns file out config
      if !cli.keep then
        ignore (removeFile file)

/-- One file after the other; the first that fails ends the run. -/
def each (one : Path → Cmd Unit) : List Path → Cmd Unit
  | [] => return ()
  | file :: rest => do
    one file
    each one rest

/-- A panic in the builder ends the program. -/
def built : Except Fault PgzfConfig → Cmd PgzfConfig
  | .ok config => return config
  | .error fault => throw (.ofPgzf fault)

/-- What `main` does with its configuration. -/
def run (cli : Cli) (config : PgzfConfig) (turns : Nat) : Cmd Unit :=
  if cli.inspect then
    if cli.files.isEmpty then
      throw (.error (.text "pgzf -i requires at least one file"))
    else
      each inspectFile cli.files
  else if cli.decompress then
    if cli.files.isEmpty then
      decompressStdin D turns cli.output cli.seekByte cli.limit
    else
      each (cli.decompressOne D turns) cli.files
  else
    if cli.files.isEmpty then
      compressStdin D turns cli.output config
    else
      each (cli.compressOne D config turns) cli.files

/-- The configuration is built whatever there is to do. -/
def main (cli : Cli) (turns : Nat) : Cmd Unit := do
  let config ← built (PgzfConfig.build cli.builder)
  cli.run D config turns

variable {D} {cli : Cli} {config : PgzfConfig}

theorem main_built (h : PgzfConfig.build cli.builder = .ok config) (turns : Nat) :
    cli.main D turns = cli.run D config turns := by
  rw [main, h]
  rfl

theorem main_unbuilt {fault : Fault} (h : PgzfConfig.build cli.builder = .error fault)
    (turns : Nat) (world : World) : cli.main D turns world = .error (.ofPgzf fault) world := by
  rw [main, h]
  rfl

end Cli

end Pgzf
