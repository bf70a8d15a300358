import Pgzf.Extraction
import Pgzf.Seeking

/-!
# Runs of `-d`

Each archive is decompressed to a place of its own, and removed behind that. A run that ends early,
at a write that fails or for want of turns, leaves every archive where it is or the whole of what
was asked for in its place.
-/

namespace Pgzf

open Program PgzfReader

variable {D : Deps} {world world' : World} {cli : Cli}

/-- An archive of `payload` is there, and the window that is asked for begins inside of it. -/
structure Extractable (D : Deps) (cli : Cli) (files : Path → Option Bytes) (path : Path)
    (payload : Bytes) : Prop where
  archive : ∃ file, files path = some file ∧ Unpacks D file payload
  inside : cli.seekByte.getD 0 ≤ payload.length

def Cli.extracts (cli : Cli) (payload : Bytes) : Bytes := extract cli.seekByte cli.limit payload

/-! ### One file -/

/-- The output holds what was asked for, and the archive is gone or it is kept. -/
structure Decompressed (cli : Cli) (path place : Path) (payload : Bytes) (world world' : World) :
    Prop where
  output : world'.files place = some (cli.extracts payload)
  archive : world'.files path = world.files path ∨ cli.keep = false ∧ world'.files path = none
  removed : cli.keep = false → ¬ Broken world.outputFaults → world'.files path = none
  others : ∀ other, other ≠ path → other ≠ place → world'.files other = world.files other
  directories : world'.directories = world.directories
  inputFaults : world'.inputFaults = world.inputFaults
  outputFaults : world'.outputFaults <:+ world.outputFaults

theorem Cli.decompressOne_ends (hstdout : cli.stdout = false) (hthreads : cli.threads < 2 ^ 63)
    {path place : Path} (hout : cli.decompressOutput path = some place) {payload : Bytes}
    (hready : Extractable D cli world.files path payload) (hfaults : world.inputFaults = [])
    (hapart : place ≠ path) (turns : Nat) :
    Post (fun _ world' => Decompressed cli path place payload world world')
      (fun e world' => Elsewhere world (some place) world' ∧
        (world.Refuses (some place) ∨ e = .diverges ∧ turns ≤ (cli.extracts payload).length))
      (cli.decompressOne D turns path world) := by
  obtain ⟨⟨file, hfile, hunpacks⟩, hinside⟩ := hready
  have hne : some place ≠ some path := fun heq => hapart (Option.some.inj heq)
  have hends := decompressFile_ends hunpacks hfile hfaults hne hinside cli.limit hthreads turns
  have halone :=
    (leavesAlone_decompressFile (D := D) turns path (some place) cli.seekByte cli.limit cli.threads
      world).post (.refl world _)
  rw [Cli.decompressOne, hout]
  cases hrun : decompressFile D turns path (some place) cli.seekByte cli.limit cli.threads
      world with
  | error e mid =>
    rw [hrun] at hends halone
    rw [bind_error hrun]
    exact ⟨halone, hends⟩
  | ok u mid =>
    rw [hrun] at hends
    replace hends : Extracted world (some place) (cli.extracts payload) mid := hends
    have hsource := hends.elsewhere.files path hne
    rw [bind_ok hrun]
    by_cases hkeep : cli.keep = true
    · simp only [hkeep, Bool.not_true, Bool.false_and, Bool.false_eq_true, if_false]
      refine ⟨hends.file _ rfl, .inl hsource, fun hnot => absurd hkeep (by rw [hnot]; simp), ?_,
        hends.elsewhere.directories, hends.inputFaults, hends.outputFaults⟩
      exact fun other _ hother => hends.elsewhere.files other fun heq =>
        hother (Option.some.inj heq).symm
    · have hkeep : cli.keep = false := by simpa using hkeep
      simp only [hkeep, hstdout, Bool.not_false, Bool.and_self, Option.isSome_some, if_true]
      apply (ignore_removeFile_ends path mid).mono
      · intro _ last hremoved
        have hothers : ∀ other, other ≠ path → last.files other = mid.files other := by
          intro other hother
          rcases hremoved.files with hgone | ⟨hstays, -⟩
          · rw [hgone]
            exact Function.update_of_ne hother _ _
          · rw [hstays]
        refine ⟨(hothers _ hapart).trans (hends.file _ rfl), ?_, ?_, ?_,
          hremoved.directories.trans hends.elsewhere.directories,
            hremoved.inputFaults.trans hends.inputFaults,
          hremoved.outputFaults.trans hends.outputFaults⟩
        · rcases hremoved.files with hgone | ⟨hstays, -⟩
          · exact .inr ⟨hkeep, by rw [hgone]; exact Function.update_self _ _ _⟩
          · exact .inl (by rw [hstays, hsource])
        · intro _ hquiet
          rcases hremoved.files with hgone | ⟨-, hbroken⟩
          · rw [hgone]
            exact Function.update_self _ _ _
          · exact absurd (hbroken.of_suffix hends.outputFaults) hquiet
        · intro other hpath hother
          rw [hothers other hpath]
          exact hends.elsewhere.files other fun heq => hother (Option.some.inj heq).symm
      · exact fun _ _ hfalse => hfalse.elim

/-! ### A list of files -/

/-- The places the archives are decompressed to are apart from each other and from the archives. -/
structure Apart (paths : List Path) : Prop where
  nodup : paths.Nodup
  names : (paths.map decompressName).Nodup
  apart : ∀ path ∈ paths, ∀ other ∈ paths, decompressName path ≠ other

theorem Apart.tail {path : Path} {rest : List Path} (h : Apart (path :: rest)) : Apart rest :=
  ⟨(List.nodup_cons.mp h.nodup).2, (List.nodup_cons.mp h.names).2,
    fun p hp q hq => h.apart p (List.mem_cons_of_mem _ hp) q (List.mem_cons_of_mem _ hq)⟩

/-- What holds of each of the `paths` and its place, from what they held before and hold behind a
run that changes no other file. -/
structure Treated (Q : Path → Option Bytes → Option Bytes → Option Bytes → Option Bytes → Prop)
    (paths : List Path) (files files' : Path → Option Bytes) : Prop where
  each : ∀ path ∈ paths, Q path (files path) (files (decompressName path)) (files' path)
    (files' (decompressName path))
  others : ∀ other, other ∉ paths → other ∉ paths.map decompressName → files' other = files other

section Treated

variable {Q : Path → Option Bytes → Option Bytes → Option Bytes → Option Bytes → Prop} {path : Path}
  {rest : List Path} {files mid files' : Path → Option Bytes}

theorem Treated.refl (hQ : ∀ path file place, Q path file place file place) (paths : List Path)
    (files : Path → Option Bytes) : Treated Q paths files files :=
  ⟨fun path _ => hQ path _ _, fun _ _ _ => rfl⟩

theorem treated_singleton
    (hQ : Q path (files path) (files (decompressName path)) (files' path)
      (files' (decompressName path)))
    (hothers : ∀ other, other ≠ path → other ≠ decompressName path → files' other = files other) :
    Treated Q [path] files files' := by
  refine ⟨fun p hp => ?_, fun other hother hother' => ?_⟩
  · obtain rfl := List.mem_singleton.mp hp
    exact hQ
  · exact hothers other (by simpa using hother) (by simpa using hother')

theorem Treated.kept (h : Treated Q rest mid files') (hapart : Apart (path :: rest)) :
    files' path = mid path ∧ files' (decompressName path) = mid (decompressName path) := by
  have hpath : path ∉ rest := (List.nodup_cons.mp hapart.nodup).1
  have hname : decompressName path ∉ rest.map decompressName := (List.nodup_cons.mp hapart.names).1
  constructor
  · apply h.others path hpath
    intro hmem
    obtain ⟨p, hp, heq⟩ := List.mem_map.mp hmem
    exact hapart.apart p (List.mem_cons_of_mem _ hp) path List.mem_cons_self heq
  · exact h.others _ (fun hmem => hapart.apart path List.mem_cons_self _
      (List.mem_cons_of_mem _ hmem) rfl) hname

/-- What one run does to a file and its place, and what the runs on the files behind it do. -/
theorem Treated.cons (hapart : Apart (path :: rest)) (hfirst : Treated Q [path] files mid)
    (h : Treated Q rest mid files') : Treated Q (path :: rest) files files' := by
  have hpath : path ∉ rest := (List.nodup_cons.mp hapart.nodup).1
  have hname : decompressName path ∉ rest.map decompressName := (List.nodup_cons.mp hapart.names).1
  obtain ⟨hkept, hplace⟩ := h.kept hapart
  have hothers : ∀ other, other ≠ path → other ≠ decompressName path → mid other = files other :=
    fun other hother hother' => hfirst.others other (by simpa using hother) (by simpa using hother')
  refine ⟨fun p hp => ?_, fun other hother hother' => ?_⟩
  · rcases List.mem_cons.mp hp with rfl | hp
    · rw [hkept, hplace]
      exact hfirst.each p List.mem_cons_self
    · have hmem := List.mem_cons_of_mem path hp
      have hbefore := hothers p (fun heq => hpath (heq ▸ hp)) fun heq =>
        hapart.apart path List.mem_cons_self p hmem heq.symm
      have hbefore' := hothers (decompressName p)
        (hapart.apart p hmem path List.mem_cons_self) fun heq =>
          hname (heq ▸ List.mem_map_of_mem hp)
      have heach := h.each p hp
      rwa [hbefore, hbefore'] at heach
  · rw [List.mem_cons, not_or] at hother
    rw [List.map_cons, List.mem_cons, not_or] at hother'
    rw [h.others other hother.2 hother'.2, hothers other hother.1 hother'.1]

end Treated

variable {config : PgzfConfig}

theorem Cli.main_decompress {cli : Cli} (hbuild : PgzfConfig.build cli.builder = .ok config)
    (hinspect : cli.inspect = false) (hdecompress : cli.decompress = true) (hfiles : cli.files ≠ [])
    (turns : Nat) :
    cli.main D turns = Cli.each (cli.decompressOne D turns) cli.files := by
  have hempty : cli.files.isEmpty = false := by simpa using hfiles
  rw [Cli.main_built hbuild, Cli.run, hinspect, hdecompress, hempty]
  rfl

theorem Post.endWorld {α : Type} {result : EStateM.Result Exit World α} {P : World → Prop}
    (h : Post (fun _ world' => P world') (fun _ world' => P world') result) :
    P (endWorld result) := by
  cases result with
  | ok a world' => exact h
  | error e world' => exact h

theorem Post.exists_world {result : EStateM.Result Exit World Unit} {Q : Unit → World → Prop}
    {R : Exit → World → Prop} (h : Post Q R result) (hR : ∀ e world', ¬ R e world') :
    ∃ world', result = .ok () world' ∧ Q () world' := by
  cases result with
  | ok u world' => exact ⟨world', rfl, h⟩
  | error e world' => exact absurd h (hR e world')

def Stored.archiveWorld : World where
  files := Function.update (fun _ => none) [97, 46, 103, 122] (some Stored.sampleFile)
  directories := fun _ => false
  stdin := []
  stdout := []
  reports := []
  inputFaults := []
  outputFaults := []

theorem Stored.extractable_sample {cli : Cli} (hfiles : cli.files = [[97, 46, 103, 122]])
    (hinside : cli.seekByte.getD 0 ≤ 7) :
    ∀ path ∈ cli.files, Extractable Stored.deps cli Stored.archiveWorld.files path
      [97, 98, 99, 100, 101, 102, 103] := by
  intro path hpath
  rw [hfiles] at hpath
  obtain rfl := List.mem_singleton.mp hpath
  have hfile : Stored.archiveWorld.files [97, 46, 103, 122] = some Stored.sampleFile := by
    simp [Stored.archiveWorld]
  exact ⟨⟨_, hfile, Stored.written_sample.unpacks (by decide)⟩, hinside⟩

theorem Cli.each_decompressOne_prints (hstdout : cli.stdout = true) (houtput : cli.output = none)
    (hthreads : cli.threads < 2 ^ 63) {paths : List Path} {payload : Path → Bytes} (turns : Nat)
    {world : World} (hready : ∀ path ∈ paths, Extractable D cli world.files path (payload path))
    (hfaults : world.inputFaults = []) :
    Post (fun _ world' => world'.stdout = world.stdout ++
      (paths.map fun path => cli.extracts (payload path)).flatten)
      (fun e _ => Broken world.outputFaults ∨ e = .diverges ∧ ∃ path ∈ paths,
        turns ≤ (cli.extracts (payload path)).length)
      (Cli.each (cli.decompressOne D turns) paths world) := by
  induction paths generalizing world with
  | nil => exact (List.append_nil _).symm
  | cons path rest ih =>
    have hnone : cli.decompressOutput path = none := by
      simp only [Cli.decompressOutput, houtput, hstdout, if_true]
    obtain ⟨⟨file, hfile, hunpacks⟩, hinside⟩ := hready path List.mem_cons_self
    have hfirst := decompressFile_ends hunpacks hfile hfaults
      (show (none : Option Path) ≠ some path by simp) hinside cli.limit hthreads turns
    rw [Cli.each, bind_apply, Cli.decompressOne, hnone]
    simp only [Option.isSome_none, Bool.and_false, Bool.false_eq_true, if_false]
    cases hrun : decompressFile D turns path none cli.seekByte cli.limit cli.threads world with
    | error e mid =>
      rw [hrun] at hfirst
      rw [bind_error hrun]
      exact hfirst.imp broken_of_refuses fun hdiverges => ⟨hdiverges.1, path, List.mem_cons_self,
        hdiverges.2⟩
    | ok u mid =>
      rw [hrun] at hfirst
      replace hfirst : Extracted world none (cli.extracts (payload path)) mid := hfirst
      rw [bind_ok hrun, pure_apply]
      have hready' : ∀ p ∈ rest, Extractable D cli mid.files p (payload p) := by
        intro p hp
        rw [hfirst.elsewhere.files_eq]
        exact hready p (List.mem_cons_of_mem _ hp)
      apply (ih hready' (hfirst.inputFaults.trans hfaults)).mono
      · intro _ last hlast
        rw [hlast, hfirst.printed rfl, List.map_cons, List.flatten_cons, List.append_assoc]
      · intro e _ hexit
        rcases hexit with hbroken | ⟨rfl, p, hp, hle⟩
        · exact .inl (hbroken.of_suffix hfirst.outputFaults)
        · exact .inr ⟨rfl, p, List.mem_cons_of_mem _ hp, hle⟩

/-- With `-c` the windows are printed one after the other, and no file changes. -/
theorem decompress_prints {cli : Cli} (hinspect : cli.inspect = false)
    (hdecompress : cli.decompress = true) (hstdout : cli.stdout = true)
    (houtput : cli.output = none) (hfiles : cli.files ≠ []) (hthreads : cli.threads < 2 ^ 63)
    (hsize : cli.config.blockSize < 2 ^ 64) {world : World} (hfaults : world.inputFaults = [])
    (hquiet : ¬ Broken world.outputFaults) {payload : Path → Bytes}
    (hready : ∀ path ∈ cli.files, Extractable D cli world.files path (payload path)) {turns : Nat}
    (hturns : ∀ path ∈ cli.files, (cli.extracts (payload path)).length < turns) :
    ∃ world', cli.main D turns world = .ok () world' ∧ world'.files = world.files ∧
      world'.stdout = world.stdout ++ (cli.files.map fun path =>
        cli.extracts (payload path)).flatten := by
  have halone : LeavesAlone none (Cli.each (cli.decompressOne D turns) cli.files) :=
    leavesAlone_each fun file _ => Cli.leavesAlone_decompressOne hstdout houtput turns file
  have hends := Cli.each_decompressOne_prints hstdout houtput hthreads turns hready hfaults
  rw [Cli.main_decompress (Cli.build_builder hsize) hinspect hdecompress hfiles]
  obtain ⟨world', hrun, hprinted⟩ := Post.exists_world hends fun e _ hexit => by
    rcases hexit with hbroken | ⟨-, path, hpath, hle⟩
    · exact hquiet hbroken
    · have := hturns path hpath
      omega
  exact ⟨world', hrun, (halone.of_ok hrun).files_eq, hprinted⟩

def Stored.printCli : Cli :=
  { decompress := true, stdout := true, seekByte := some 2, limit := some 3,
    files := [[97, 46, 103, 122]] }

theorem decompress_prints_sample :
    ∃ world', Stored.printCli.main Stored.deps 8 Stored.archiveWorld = .ok () world' ∧
      world'.files = Stored.archiveWorld.files ∧ world'.stdout = [99, 100, 101] :=
  decompress_prints rfl rfl rfl rfl (by decide) (by decide) (by decide) rfl not_broken_nil
    (Stored.extractable_sample rfl (by decide)) (by decide)

end Pgzf
