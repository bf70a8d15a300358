import Pgzf.CompressedFiles
import Pgzf.Unfaulted
import Mathlib.Logic.Relation

/-!
# Nothing is lost

A command that does not write over a file loses nothing, wherever it fails: what was in a file is
still in one, or an archive that unpacks to it is. An input is removed behind a run of the writer
that ended with a value only, and what such a run leaves can be read where the input is within the
limits of the format.
-/

namespace Pgzf

open Program PgzfWriter

variable {D : Deps} {world world' : World} {input target : Option Path} {turns : Nat}
  {config : PgzfConfig}

variable (D) in
inductive Held (files : Path → Option Bytes) : Bytes → Prop
  | stored {path : Path} {data : Bytes} : files path = some data → Held files data
  | archived {data file : Bytes} : Unpacks D file data → Held files file → Held files data

variable (D) in
def NothingLost (files files' : Path → Option Bytes) : Prop :=
  ∀ path data, files path = some data → Held D files' data

theorem NothingLost.refl (files : Path → Option Bytes) : NothingLost D files files :=
  fun _ _ h => .stored h

/-- By induction on how the data is held. -/
theorem NothingLost.held {files files' : Path → Option Bytes} (h : NothingLost D files files')
    {data : Bytes} (hdata : Held D files data) : Held D files' data := by
  induction hdata with
  | stored hstored => exact h _ _ hstored
  | archived hunpacks _ ih => exact .archived hunpacks ih

theorem NothingLost.trans {files files' files'' : Path → Option Bytes}
    (h : NothingLost D files files') (h' : NothingLost D files' files'') :
    NothingLost D files files'' :=
  fun path data hdata => h'.held (h path data hdata)

/-! ### Complete runs of the writer -/

variable (D) in
/-- `file` is what a complete run of the writer leaves of `data` in an empty sink. -/
def Archives (config : PgzfConfig) (data file : Bytes) : Prop :=
  ∃ calls out w, runCalls D (Sink.atEnd []) config calls = .ok out w ∧
    calls.flatMap WriteCall.bytes = data ∧ out.cursor.bytes = file

theorem Archives.eq_archiveOf {data file : Bytes} (h : Archives D config data file)
    (hsize : 0 < config.blockSize) : file = archiveOf D config data := by
  obtain ⟨calls, out, w, hrun, rfl, rfl⟩ := h
  obtain ⟨rfl, hrep, -⟩ := runCalls_of_ok hsize hrun
  rw [hrep.cursor]
  rfl

theorem Archives.of_empty {file : Bytes} (h : Archives D config [] file) : file = [] := by
  obtain ⟨calls, out, w, hrun, hnil, rfl⟩ := h
  obtain ⟨w', hrun', hrep⟩ := runCalls_of_empty (D := D) (of_onNew_ok hrun) hnil []
  obtain ⟨rfl, rfl⟩ := EStateM.Result.ok.inj (hrun.symm.trans hrun')
  rw [hrep.cursor]
  rfl

theorem Archives.held {files : Path → Option Bytes} {data file : Bytes}
    (h : Archives D config data file) (hstorable : data = [] ∨ Storable D config data)
    (hfile : Held D files file) : Held D files data := by
  rcases hstorable with rfl | hstorable
  · rwa [h.of_empty] at hfile
  · rw [h.eq_archiveOf hstorable.blockSize_pos] at hfile
    exact .archived hstorable.unpacks hfile

/-! ### Runs that end with a value -/

theorem of_onWriter_ok {α : Type} {w w' : PgzfWriter} {m : Prog PgzfWriter α} {a : α}
    (h : onWriter target w m world = .ok (a, w') world') :
    m w = .ok a w' ∧ world' = world.synced target w' := by
  rw [onWriter] at h
  cases hrun : m w with
  | ok b mid =>
    rw [hrun] at h
    obtain ⟨heq, rfl⟩ := EStateM.Result.ok.inj h
    obtain ⟨rfl, rfl⟩ := Prod.mk.inj heq
    exact ⟨rfl, rfl⟩
  | error fault mid =>
    rw [hrun] at h
    exact absurd h (by simp)

/-- The writer has been given what the file held behind `pos`. By induction on the turns. -/
theorem of_copyInto_ok (hne : ∀ path, input = some path → target ≠ some path) {pos : Nat}
    {w w' : PgzfWriter} (h : copyInto D input target turns pos w world = .ok w' world') :
    ∃ (calls : List WriteCall) (answers : List Unit), (calls.mapM (call D)) w = .ok answers w' ∧
      calls.flatMap WriteCall.bytes = (world.content input).drop pos := by
  induction turns generalizing pos w world with
  | zero => exact absurd h (by simp [copyInto])
  | succ turns ih =>
    obtain ⟨buf, mid, hread, h⟩ := of_bind_ok h
    have hbuf := of_readInput_ok hread
    have hmid := ((leavesAlone_readInput target input pos copyBuffer).of_ok hread).content hne
    cases buf with
    | nil =>
      obtain ⟨rfl, -⟩ := EStateM.Result.ok.inj h
      refine ⟨[], [], rfl, ?_⟩
      rcases List.take_eq_nil_iff.mp hbuf.symm with hzero | hnil
      · exact absurd hzero (Nat.ne_of_gt copyBuffer_pos)
      · rw [hnil]
        rfl
    | cons byte bytes =>
      obtain ⟨⟨n, w₁⟩, mid', hwrite, h⟩ := of_bind_ok h
      have hmid' := ((leavesAlone_onWriter target w _).of_ok hwrite).content hne
      obtain ⟨hwrite, -⟩ := of_onWriter_ok hwrite
      obtain ⟨calls, answers, hcalls, hbytes⟩ := ih h
      have hcall : call D (.write (byte :: bytes)) w = .ok () w₁ := by
        rw [call, bind_ok hwrite, pure_apply]
      refine ⟨.write (byte :: bytes) :: calls, () :: answers, ?_, ?_⟩
      · rw [mapM_cons_apply, hcall]
        simp only [hcalls]
      · rw [List.flatMap_cons, hbytes, hmid', hmid, ← List.drop_drop, WriteCall.bytes]
        exact List.prefix_iff_eq_append.mp (hbuf ▸ List.take_prefix _ _)

theorem of_startWriter_ok {w : PgzfWriter} (h : startWriter target config world = .ok w world') :
    config.blockSize < 2 ^ 63 ∧ w = started (world.newSink target) config := by
  rw [startWriter] at h
  cases hnew : withConfig (world.newSink target) config with
  | ok u w₀ =>
    rw [hnew] at h
    obtain ⟨rfl, -⟩ := EStateM.Result.ok.inj h
    exact of_withConfig_ok hnew
  | error fault w₀ =>
    rw [hnew] at h
    exact absurd h (by simp)

theorem of_finish_ok {w w' : PgzfWriter} {sink : Sink} (h : finish D w = .ok sink w') :
    w'.inner = sink := by
  obtain ⟨_, mid, -, h⟩ := of_bind_ok h
  obtain ⟨_, mid', -, h⟩ := of_bind_ok h
  obtain ⟨rfl, rfl⟩ := EStateM.Result.ok.inj h
  rfl

/-- What a command that compresses leaves is an archive of what it read. -/
theorem of_compressStream_ok (hne : ∀ path, input = some path → target ≠ some path) {data : Bytes}
    (h : compressStream D turns input target config world = .ok data world') :
    Archives D config (world.content input) data ∧ ∀ out, target = some out →
      world'.files out = some data := by
  obtain ⟨w, mid, hstart, h⟩ := of_bind_ok h
  have hmid := ((leavesAlone_startWriter target config).of_ok hstart).content hne
  obtain ⟨hallocated, rfl⟩ := of_startWriter_ok hstart
  obtain ⟨w', mid', hcopy, h⟩ := of_bind_ok h
  obtain ⟨calls, answers, hcalls, hbytes⟩ := of_copyInto_ok hne hcopy
  obtain ⟨⟨sink, w''⟩, mid'', hlast, h⟩ := of_bind_ok h
  obtain ⟨hfinish, rfl⟩ := of_onWriter_ok hlast
  obtain ⟨rfl, rfl⟩ := EStateM.Result.ok.inj h
  have hrun : runCalls D (world.newSink target) config calls = .ok sink w'' := by
    rw [runCalls, onNew_eq hallocated, bind_ok hcalls, hfinish]
  have hsink : (world.newSink target).cursor = ⟨[], 0⟩ := by cases target <;> rfl
  obtain ⟨out, v, hrun', hcursor⟩ := runCalls_steady hsink hrun
  refine ⟨⟨calls, out, v, hrun', by rw [hbytes, hmid, List.drop_zero], by rw [hcursor]⟩, ?_⟩
  intro path hpath
  subst hpath
  rw [← of_finish_ok hfinish]
  exact Function.update_self _ _ _

theorem of_openFile_ok {path : Path} (h : openFile path world = .ok () world') :
    (∃ data, world.files path = some data) ∧ world'.files = world.files := by
  refine ⟨?_, ((leavesAlone_openFile none path).of_ok h).files_eq⟩
  obtain ⟨_, mid, htick, h⟩ := of_bind_ok h
  rw [← ((leavesAlone_tickInput none).of_ok htick).files_eq]
  rw [bind_ok (get_apply mid)] at h
  cases hfile : mid.files path with
  | some data => exact ⟨data, rfl⟩
  | none =>
    rw [hfile] at h
    exact absurd h (by simp)

theorem of_compressFile_ok {file out : Path} (hnew : world.files out = none)
    (h : compressFile D turns file out config world = .ok () world') :
    file ≠ out ∧ ∃ data archive, world.files file = some data ∧ world'.files out = some archive ∧
      Archives D config data archive := by
  obtain ⟨_, mid, hopen, h⟩ := of_bind_ok h
  obtain ⟨⟨data, hdata⟩, hmid⟩ := of_openFile_ok hopen
  have hne : file ≠ out := by
    intro heq
    rw [heq, hnew] at hdata
    exact absurd hdata (by simp)
  have hapart : ∀ path, some file = some path → some out ≠ some path := fun path hpath heq =>
    hne (Option.some.inj (hpath.trans heq.symm))
  obtain ⟨_, mid', hcreate, h⟩ := of_bind_ok h
  have hcontent := ((leavesAlone_createFile out).of_ok hcreate).content hapart
  obtain ⟨archive, mid'', hstream, h⟩ := of_bind_ok h
  obtain ⟨harchives, hfile⟩ := of_compressStream_ok hapart hstream
  obtain ⟨-, rfl⟩ := EStateM.Result.ok.inj h
  refine ⟨hne, data, archive, hdata, hfile out rfl, ?_⟩
  have hread : mid'.content (some file) = data := by
    rw [hcontent, World.content, hmid, hdata, Option.getD_some]
  rwa [hread] at harchives

/-! ### Commands that lose nothing -/

variable (D) in
/-- Whichever way the command ends there, nothing is lost. -/
abbrev Lossless {α : Type} (m : Cmd α) (world : World) : Prop :=
  Post (fun _ world' => NothingLost D world.files world'.files) (fun _ world' =>
    NothingLost D world.files world'.files) (m world)

theorem Lossless.bind {α β : Type} {m : Cmd α} {f : α → Cmd β} (hm : Lossless D m world)
    (hf : ∀ a mid, m world = .ok a mid → Lossless D (f a) mid) : Lossless D (m >>= f) world := by
  rw [Lossless, bind_apply]
  rw [Lossless] at hm
  cases hrun : m world with
  | ok a mid =>
    rw [hrun] at hm
    exact (hf a mid hrun).mono (fun _ _ h => NothingLost.trans hm h) fun _ _ h =>
      NothingLost.trans hm h
  | error e mid =>
    rw [hrun] at hm
    exact hm

theorem LeavesAlone.lossless {α : Type} {m : Cmd α} (h : LeavesAlone none m) (world : World) :
    Lossless D m world := by
  have hsame : ∀ world', Elsewhere world none world' → NothingLost D world.files world'.files :=
    fun world' h' => by
      rw [h'.files_eq]
      exact .refl _
  exact ((h world).post (.refl world none)).mono (fun _ => hsame) fun _ => hsame

theorem Elsewhere.nothingLost {out : Path} (h : Elsewhere world (some out) world')
    (hnew : world.files out = none) :
    NothingLost D world.files world'.files := by
  intro path data hdata
  apply Held.stored
  rw [h.files path, hdata]
  intro heq
  rw [← Option.some.inj heq, hnew] at hdata
  exact absurd hdata (by simp)

theorem nothingLost_removed {file out : Path} {data archive : Bytes} {files' : Path → Option Bytes}
    (h : Elsewhere world (some out) world') (hnew : world.files out = none) (hne : file ≠ out)
    (hdata : world.files file = some data) (harchive : world'.files out = some archive)
    (harchives : Archives D config data archive) (hstorable : data = [] ∨ Storable D config data)
    (hfiles : files' = Function.update world'.files file none ∨ files' = world'.files) :
    NothingLost D world.files files' := by
  apply (h.nothingLost hnew).trans
  rcases hfiles with rfl | rfl
  · intro path content hcontent
    by_cases hpath : path = file
    · rw [hpath, h.files file (fun heq => hne (Option.some.inj heq).symm), hdata] at hcontent
      rw [← Option.some.inj hcontent]
      exact harchives.held hstorable
        (.stored ((Function.update_of_ne (Ne.symm hne) _ _).trans harchive))
    · exact .stored ((Function.update_of_ne hpath _ _).trans hcontent)
  · exact .refl _

variable (D) in
/-- A file that a run is going to replace by its archive is empty, or within the limits of the
format with a codec that does what is expected of it. -/
def Cli.Replaceable (cli : Cli) (config : PgzfConfig) (world : World) (file : Path) : Prop :=
  cli.inspect = false → cli.stdout = false → cli.keep = false →
    ∀ data, world.files file = some data → data = [] ∨ Storable D config data

/-- The file to write to is not there, so nothing is written over. -/
theorem Cli.compressOne_lossless {cli : Cli} (hinspect : cli.inspect = false)
    (hforce : cli.stdout = true ∨ cli.force = false) (turns : Nat) {file : Path}
    (hreplaceable : cli.Replaceable D config world file) :
    Lossless D (cli.compressOne D config turns file) world := by
  rw [Cli.compressOne]
  cases hstdout : cli.stdout with
  | true =>
    simp only [if_true]
    apply LeavesAlone.lossless
    exact (leavesAlone_openFile none file).bind fun _ =>
      (leavesAlone_compressStream turns (some file) none config).bind fun data =>
        leavesAlone_writeOutput none 0 data
  | false =>
    have hforce : cli.force = false := hforce.resolve_left (by simp [hstdout])
    simp only [Bool.false_eq_true, if_false, hforce, Bool.not_false, Bool.true_and, Lossless,
      bind_ok (get_apply world)]
    cases hexists : world.exists (cli.compressOutput file) with
    | true => exact NothingLost.refl _
    | false =>
      have hnew : world.files (cli.compressOutput file) = none := by
        rw [World.exists, Bool.or_eq_false_iff] at hexists
        simpa using hexists.1
      have halone :=
        leavesAlone_compressFile (D := D) turns file (cli.compressOutput file) config world
      simp only [Bool.false_eq_true, if_false]
      rw [bind_apply]
      cases hrun : compressFile D turns file (cli.compressOutput file) config world with
      | error e mid => exact (halone.of_error (.refl world _) hrun).nothingLost hnew
      | ok u mid =>
        have hmid := halone.of_ok (.refl world _) hrun
        obtain ⟨hne, data, archive, hdata, harchive, harchives⟩ := of_compressFile_ok hnew hrun
        cases hkeep : cli.keep with
        | true =>
          simp only [Bool.not_true, Bool.false_eq_true, if_false]
          exact hmid.nothingLost hnew
        | false =>
          simp only [Bool.not_false, if_true]
          apply (ignore_removeFile_ends file mid).mono
          · intro _ _ hremoved
            exact nothingLost_removed hmid hnew hne hdata harchive harchives
              (hreplaceable hinspect hstdout hkeep data hdata) (hremoved.files.imp_right And.left)
          · exact fun _ _ hfalse => hfalse.elim

/-- By induction on the files. -/
theorem Cli.each_compressOne_lossless {cli : Cli} (hinspect : cli.inspect = false)
    (hforce : cli.stdout = true ∨ cli.force = false) {turns : Nat} {files : List Path}
    {world : World}
    (hreplaceable : AllSteps (cli.compressOne D config turns)
      (cli.Replaceable D config) world files) :
    Lossless D (Cli.each (cli.compressOne D config turns) files) world := by
  induction files generalizing world with
  | nil => exact (leavesAlone_pure none ()).lossless world
  | cons file rest ih =>
    exact (Cli.compressOne_lossless hinspect hforce turns hreplaceable.1).bind fun _ mid hrun =>
      ih (hreplaceable.2 _ mid hrun)

/-! ### Sessions -/

/-- A command line that writes over no file: it inspects, it writes to standard output, or it
compresses files without `-f`. -/
def Cli.Careful (cli : Cli) : Prop :=
  cli.inspect = true ∨ cli.files = [] ∧ cli.output = none ∨
    cli.files ≠ [] ∧ cli.stdout = true ∧ (cli.decompress = true → cli.output = none) ∨
    cli.files ≠ [] ∧ cli.decompress = false ∧ cli.force = false

theorem Cli.main_lossless {cli : Cli} (h : cli.Careful) {turns : Nat} {world : World}
    (hreplaceable : ∀ config, PgzfConfig.build cli.builder = .ok config →
      AllSteps (cli.compressOne D config turns) (cli.Replaceable D config) world cli.files) :
    Lossless D (cli.main D turns) world := by
  cases hbuild : PgzfConfig.build cli.builder with
  | error fault =>
    rw [show cli.main D turns = throw _ from funext (Cli.main_unbuilt hbuild turns)]
    exact (leavesAlone_throw none _).lossless world
  | ok config =>
    replace hreplaceable := hreplaceable config hbuild
    rw [Cli.main_built hbuild, Cli.run]
    by_cases hinspect : cli.inspect = true
    · rw [if_pos hinspect]
      by_cases hfiles : cli.files.isEmpty = true
      · rw [if_pos hfiles]
        exact (leavesAlone_throw none _).lossless world
      · rw [if_neg hfiles]
        exact (leavesAlone_each fun file _ => leavesAlone_inspectFile file).lossless world
    rw [if_neg hinspect]
    rcases h.resolve_left hinspect with ⟨hfiles, houtput⟩ | ⟨hfiles, hstdout, houtput⟩ | ⟨hfiles,
      hdecompress, hforce⟩
    · rw [hfiles, houtput, List.isEmpty_nil, if_pos rfl, if_pos rfl]
      by_cases hdecompress : cli.decompress = true
      · rw [if_pos hdecompress]
        exact (leavesAlone_decompressStdin turns none cli.seekByte cli.limit).lossless world
      · rw [if_neg hdecompress]
        exact (leavesAlone_compressStdin turns none config).lossless world
    · have hempty : ¬ cli.files.isEmpty = true := by rwa [List.isEmpty_iff]
      rw [if_neg hempty, if_neg hempty]
      by_cases hdecompress : cli.decompress = true
      · rw [if_pos hdecompress]
        exact (leavesAlone_each fun file _ =>
          Cli.leavesAlone_decompressOne hstdout (houtput hdecompress) turns file).lossless world
      · rw [if_neg hdecompress]
        exact Cli.each_compressOne_lossless (by simpa using hinspect) (.inl hstdout) hreplaceable
    · have hempty : ¬ cli.files.isEmpty = true := by rwa [List.isEmpty_iff]
      rw [if_neg hempty, if_neg (by rw [hdecompress]; exact Bool.false_ne_true), if_neg hempty]
      exact Cli.each_compressOne_lossless (by simpa using hinspect) (.inr hforce) hreplaceable

variable (D) in
/-- What may happen to the files between two moments of a session: a careful run of the program, in
any world, which may fail at any operation or run out of turns, or a new file from elsewhere.
Whatever the run replaces by an archive is within the limits of the format when its turn comes. -/
inductive SessionStep : (Path → Option Bytes) → (Path → Option Bytes) → Prop
  | run {cli : Cli} {turns : Nat} {world : World} : cli.Careful →
    (∀ config, PgzfConfig.build cli.builder = .ok config →
      AllSteps (cli.compressOne D config turns) (cli.Replaceable D config) world cli.files) →
    SessionStep world.files (endWorld (cli.main D turns world)).files
  | appears {files : Path → Option Bytes} {path : Path} (data : Bytes) : files path = none →
    SessionStep files (Function.update files path (some data))

theorem SessionStep.nothingLost {files files' : Path → Option Bytes}
    (h : SessionStep D files files') :
    NothingLost D files files' := by
  cases h with
  | @run cli turns world hcareful hreplaceable =>
    have hlossless := Cli.main_lossless hcareful hreplaceable
    rw [Lossless] at hlossless
    cases hrun : cli.main D turns world with
    | ok u world' =>
      rw [hrun] at hlossless
      exact hlossless
    | error e world' =>
      rw [hrun] at hlossless
      exact hlossless
  | @appears _ path data hnew =>
    intro other content hcontent
    apply Held.stored
    rw [Function.update_of_ne, hcontent]
    intro heq
    rw [← heq, hcontent] at hnew
    exact absurd hnew (by simp)

end Pgzf
