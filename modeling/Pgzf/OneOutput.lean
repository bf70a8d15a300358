import Pgzf.AnyFile
import Pgzf.CompressedFiles
import Pgzf.Stream

/-!
# One output for several files (`-o`)

With `-o` every archive of the list is decompressed to the same file, from its start, and removed
behind that. So of several archives the last one's data is left, and the others are gone.
-/

namespace Pgzf

open Program PgzfReader

variable {D : Deps} {world : World} {cli : Cli} {place : Path}

/-- What a run with `-o` leaves: the window of the last payload in its place, and no archive. -/
structure OnlyLast (cli : Cli) (paths : List Path) (place : Path) (payload : Bytes)
    (world world' : World) : Prop where
  output : world'.files place = some (cli.extracts payload)
  removed : ∀ path ∈ paths, world'.files path = none
  others : ∀ other, other ≠ place → other ∉ paths → world'.files other = world.files other

theorem OnlyLast.cons {path : Path} {paths : List Path} {first last : Bytes} {mid world' : World}
    (h : OnlyLast cli paths place last mid world') (hpath : path ∉ paths) (hplace : path ≠ place)
    (hremoved : mid.files path = none) (hfirst : Decompressed cli path place first world mid) :
    OnlyLast cli (path :: paths) place last world world' := by
  refine ⟨h.output, fun p hp => ?_, fun other hother hmem => ?_⟩
  · rcases List.mem_cons.mp hp with rfl | hp
    · rw [h.others p hplace hpath, hremoved]
    · exact h.removed p hp
  · rw [List.mem_cons, not_or] at hmem
    rw [h.others other hother hmem.2, hfirst.others other hmem.1 hother]

theorem Cli.decompressOne_done (hstdout : cli.stdout = false) (hthreads : cli.threads < 2 ^ 63)
    {path : Path} (hout : cli.decompressOutput path = some place) {payload : Bytes}
    (hready : Extractable D cli world.files path payload) (hfaults : world.inputFaults = [])
    (hrefuses : ¬ world.Refuses (some place)) (hapart : place ≠ path) {turns : Nat}
    (hturns : (cli.extracts payload).length < turns) :
    ∃ mid, cli.decompressOne D turns path world = .ok () mid ∧
      Decompressed cli path place payload world mid := by
  apply Post.exists_world (Cli.decompressOne_ends hstdout hthreads hout hready hfaults hapart turns)
  intro e _ hexit
  rcases hexit.2 with hrefused | ⟨-, hle⟩
  · exact hrefuses hrefused
  · exact absurd hturns (Nat.not_lt_of_ge hle)

/-- By induction on the archives in front of the last. -/
theorem Cli.each_decompressOne_to_place (hstdout : cli.stdout = false)
    (houtput : cli.output = some place) (hkeep : cli.keep = false) (hthreads : cli.threads < 2 ^ 63)
    {front : List Path} {last : Path} (hnodup : (front ++ [last]).Nodup)
    (hplace : place ∉ front ++ [last]) (hfaults : world.inputFaults = [])
    (hquiet : ¬ Broken world.outputFaults) (hcreatable : world.Creatable place)
    {payload : Path → Bytes}
    (hready : ∀ path ∈ front ++ [last], Extractable D cli world.files path (payload path))
    {turns : Nat}
    (hturns : ∀ path ∈ front ++ [last], (cli.extracts (payload path)).length < turns) :
    ∃ world', Cli.each (cli.decompressOne D turns) (front ++ [last]) world = .ok () world' ∧
      OnlyLast cli (front ++ [last]) place (payload last) world world' := by
  have hout : ∀ path, cli.decompressOutput path = some place :=
    fun path => by rw [Cli.decompressOutput, houtput]
  have hrefuses := not_refuses hquiet hcreatable
  induction front generalizing world with
  | nil =>
    have hne : place ≠ last := fun heq => hplace (heq ▸ List.mem_singleton_self _)
    obtain ⟨mid, hrun, hmid⟩ :=
      Cli.decompressOne_done hstdout hthreads (hout last) (hready last (List.mem_singleton_self _))
        hfaults hrefuses hne (hturns last (List.mem_singleton_self _))
    refine ⟨mid, ?_, hmid.output, fun path hpath => ?_, fun other hother hmem => ?_⟩
    · rw [List.nil_append, Cli.each, bind_ok hrun]
      rfl
    · obtain rfl := List.mem_singleton.mp hpath
      exact hmid.removed hkeep hquiet
    · exact hmid.others other (fun heq => hmem (heq ▸ List.mem_singleton_self _)) hother
  | cons path front ih =>
    rw [List.cons_append] at hnodup hplace hready hturns ⊢
    rw [List.mem_cons, not_or] at hplace
    obtain ⟨hpath, hnodup⟩ := List.nodup_cons.mp hnodup
    obtain ⟨mid, hrun, hmid⟩ :=
      Cli.decompressOne_done hstdout hthreads (hout path) (hready path List.mem_cons_self) hfaults
        hrefuses hplace.1 (hturns path List.mem_cons_self)
    have hready' : ∀ p ∈ front ++ [last], Extractable D cli mid.files p (payload p) := by
      intro p hp
      have hsame := hmid.others p (fun heq => hpath (heq ▸ hp)) fun heq => hplace.2 (heq ▸ hp)
      obtain ⟨⟨file, hfile, hunpacks⟩, hinside⟩ := hready p (List.mem_cons_of_mem _ hp)
      exact ⟨⟨file, hsame.trans hfile, hunpacks⟩, hinside⟩
    have hquiet' : ¬ Broken mid.outputFaults :=
      fun hbroken => hquiet (hbroken.of_suffix hmid.outputFaults)
    have hcreatable' : mid.Creatable place := hcreatable.of_directories hmid.directories
    obtain ⟨world', hrest, hlast⟩ :=
      ih hnodup hplace.2 (hmid.inputFaults.trans hfaults) hquiet' hcreatable' hready'
        (fun p hp => hturns p (List.mem_cons_of_mem _ hp)) (not_refuses hquiet' hcreatable')
    refine ⟨world', by rw [Cli.each, bind_ok hrun, hrest], ?_⟩
    exact hlast.cons hpath (Ne.symm hplace.1) (hmid.removed hkeep hquiet) hmid

/-- With `-o` and several archives the run succeeds, every archive is removed, and all that is left
of them is the window of the last one. -/
theorem output_keeps_last {cli : Cli} (hinspect : cli.inspect = false)
    (hdecompress : cli.decompress = true) (hstdout : cli.stdout = false)
    (houtput : cli.output = some place) (hkeep : cli.keep = false) (hthreads : cli.threads < 2 ^ 63)
    (hsize : cli.config.blockSize < 2 ^ 64) {front : List Path} {last : Path}
    (hfiles : cli.files = front ++ [last]) (hnodup : cli.files.Nodup) (hplace : place ∉ cli.files)
    {world : World} (hfaults : world.inputFaults = []) (hquiet : ¬ Broken world.outputFaults)
    (hcreatable : world.Creatable place) {payload : Path → Bytes}
    (hready : ∀ path ∈ cli.files, Extractable D cli world.files path (payload path)) {turns : Nat}
    (hturns : ∀ path ∈ cli.files, (cli.extracts (payload path)).length < turns) :
    ∃ world', cli.main D turns world = .ok () world' ∧
      OnlyLast cli cli.files place (payload last) world world' := by
  have hne : cli.files ≠ [] := by
    rw [hfiles]
    exact List.append_ne_nil_of_right_ne_nil _ (List.cons_ne_nil _ _)
  rw [Cli.main_decompress (Cli.build_builder hsize) hinspect hdecompress hne]
  rw [hfiles] at hnodup hplace hready hturns ⊢
  exact Cli.each_decompressOne_to_place hstdout houtput hkeep hthreads hnodup hplace hfaults hquiet
    hcreatable hready hturns

def Stored.archivesWorld : World :=
  Stored.archiveWorld.update [98, 46, 103, 122] (some Stored.sampleFile)

def Stored.togetherCli : Cli :=
  { decompress := true, output := some [111], files := [[97, 46, 103, 122], [98, 46, 103, 122]] }

theorem output_keeps_last_sample :
    ∃ world', Stored.togetherCli.main Stored.deps 8 Stored.archivesWorld = .ok () world' ∧
      OnlyLast Stored.togetherCli Stored.togetherCli.files [111]
        [97, 98, 99, 100, 101, 102, 103] Stored.archivesWorld
        world' := by
  have hready : ∀ path ∈ Stored.togetherCli.files,
      Extractable Stored.deps Stored.togetherCli Stored.archivesWorld.files path
      [97, 98, 99, 100, 101, 102, 103] := by
    intro path hpath
    have hfile : Stored.archivesWorld.files path = some Stored.sampleFile := by
      rcases List.mem_cons.mp hpath with rfl | hpath
      · simp [Stored.archivesWorld, Stored.archiveWorld, World.update]
      · obtain rfl := List.mem_singleton.mp hpath
        simp [Stored.archivesWorld, World.update]
    exact ⟨⟨_, hfile, Stored.written_sample.unpacks (by decide)⟩, by decide⟩
  exact output_keeps_last rfl rfl rfl rfl rfl (by decide) (by decide)
    (show Stored.togetherCli.files = [_] ++ [_] from rfl) (by decide) (by decide) rfl not_broken_nil
      (by decide) hready
    (by decide)

/-! ### The archive as its own output -/

variable {file : Bytes} {index : PgzfIndex} {blocks : List Bytes} {r : PgzfReader D}

theorem batchAt_nil (p count : Nat) : batchAt D [] p count = .ok [] := by
  have hnone : memberAt [] p = .ok none := by
    rw [memberAt, List.length_nil, Nat.zero_sub]
    rfl
  have hchain : chainAt [] 1 p count = .ok [] := by
    rw [chainAt, hnone]
    exact ite_self _
  rw [batchAt, List.length_nil, Nat.zero_add, hchain]
  rfl

/-- The reader of a file that has been cut to nothing before anything was fetched. -/
structure Emptied (index : PgzfIndex) (r : PgzfReader D) : Prop where
  inner : ∃ p, r.inner = ⟨[], p, []⟩
  isPgzf : r.isPgzf = true
  index_eq : r.index = some index
  unlimited : r.readaheadMemoryLimit = none
  readaheadSize : 0 < r.readaheadSize
  currentBlock : r.currentBlock = []
  readahead : r.readahead = []
  notCached : ∀ i, r.blockCache.lookup i = none
  fits : index.blockCount + r.readaheadSize < 2 ^ 64

def PgzfReader.emptied (r : PgzfReader D) : PgzfReader D :=
  { r with inner := ⟨[], r.inner.pos, []⟩ }

theorem Emptied.fillReadahead (h : Emptied index r) :
    ∃ r', PgzfReader.fillReadahead r = .ok () r' ∧ r'.readahead = [] ∧ r'.currentBlock = [] := by
  obtain ⟨p, hin⟩ := h.inner
  rw [PgzfReader.fillReadahead, bind_ok (get_apply r)]
  simp only [h.isPgzf, Bool.not_true, Bool.false_eq_true, if_false, h.readahead, List.isEmpty_nil,
    h.unlimited, Option.any_none, h.index_eq]
  by_cases hend : r.nextBlockIndex ≥ index.blockCount
  · rw [if_pos hend]
    exact ⟨_, rfl, rfl, h.currentBlock⟩
  · have hfits := h.fits
    have hsize := h.readaheadSize
    have hlt : r.nextBlockIndex < min index.blockCount (r.nextBlockIndex + r.readaheadSize) := by
      omega
    have hsum : r.nextBlockIndex + r.readaheadSize < 2 ^ 64 := by omega
    have hfetch := fetchBatch_ahead (D := D) index hin hlt h.readahead fun i hi =>
      absurd (h.notCached i) hi
    rw [if_neg hend, bind_ok (addU64_of_lt hsum r)]
    rw [batchAt_nil] at hfetch
    obtain ⟨q, cache, eof, hrun, -, -⟩ := hfetch
    exact ⟨_, hrun, rfl, h.currentBlock⟩

theorem Emptied.readNextBlock (h : Emptied index r) (n : Nat) :
    ∃ r', PgzfReader.readNextBlock n r = .ok [] r' := by
  obtain ⟨r', hfill, hqueue, -⟩ := h.fillReadahead
  rw [PgzfReader.readNextBlock, bind_ok (get_apply r), if_pos h.isPgzf,
    bind_ok (serveNext_nil h.readahead n)]
  simp only
  rw [bind_ok hfill, bind_ok (serveNext_nil hqueue n)]
  exact ⟨_, rfl⟩

theorem Emptied.movedTo (h : Emptied index r) (p i : Nat) :
    Emptied index (r.movedTo ⟨[], p, []⟩ i) := by
  refine ⟨⟨p, rfl⟩, h.isPgzf, h.index_eq, h.unlimited, h.readaheadSize, rfl, rfl,
    fun j => ?_, h.fits⟩
  rw [PgzfReader.movedTo, BlockCache.lookup_get, h.notCached]

theorem Emptied.serves_nothing (h : Emptied index r) (skip : Nat) :
    ∃ r', serveTarget skip r = .ok () r' ∧ r'.currentBlock = [] ∧ r'.eof = true := by
  obtain ⟨r', hfill, hqueue, hblock⟩ := h.fillReadahead
  rw [serveTarget, bind_ok hfill, bind_ok (get_apply r')]
  simp only [hqueue]
  exact ⟨_, rfl, hblock, rfl⟩

theorem Emptied.read (hd : Describes D file index blocks) (h : Emptied index r)
    (htarget : ∀ target, r.pendingSeek = some target → target ≤ blocks.flatten.length) {n : Nat}
    (hn : 0 < n) :
    ∃ r', PgzfReader.read n r = .ok [] r' := by
  have hdone : ∀ r' : PgzfReader D, r'.currentBlock = [] →
      ¬ r'.currentPos < r'.currentBlock.length := by
    intro r' hblock
    rw [hblock]
    exact Nat.not_lt_zero _
  rw [PgzfReader.read, if_neg (Nat.ne_of_gt hn)]
  cases hpending : r.pendingSeek with
  | none =>
    rw [bind_ok (executePendingSeek_none hpending), bind_ok (get_apply r),
      if_neg (hdone r h.currentBlock)]
    by_cases heof : r.eof = true
    · rw [if_pos heof]
      exact ⟨r, rfl⟩
    · rw [if_neg heof]
      exact h.readNextBlock n
  | some target =>
    obtain ⟨p, hin⟩ := h.inner
    obtain ⟨i, skip, hseek, hi, -, -⟩ := seekByte_describes hd (htarget target hpending)
    obtain ⟨q, hoffset⟩ := hd.compressedOffset_isSome hi
    obtain ⟨r', hserve, hblock, heof⟩ := (h.movedTo q i).serves_nothing skip
    have hmiss := executePendingSeek_miss hpending h.index_eq hseek (h.notCached i) hoffset
      (seekStart_inner hin q)
    rw [bind_ok (hmiss.trans hserve), bind_ok (get_apply r'), if_neg (hdone r' hblock), if_pos heof]
    exact ⟨r', rfl⟩

theorem Emptied.copyOut {path : Path} (hd : Describes D file index blocks)
    (h : Emptied index r.emptied)
    (htarget : ∀ target, r.pendingSeek = some target → target ≤ blocks.flatten.length)
    (hempty : world.files path = some []) (hfaults : world.inputFaults = []) (limit : Option Nat)
    (output : Option Path) {turns : Nat} (hturns : 0 < turns) :
    ∃ world', Pgzf.copyOut limit (some path) output turns 0 r world = .ok () world' ∧
      world'.files = world.files ∧
      world'.outputFaults = world.outputFaults := by
  obtain ⟨turns, rfl⟩ := Nat.exists_eq_add_one_of_ne_zero (Nat.ne_of_gt hturns)
  rw [Pgzf.copyOut]
  cases hwanted : wanted limit 0 with
  | none => exact ⟨world, rfl, rfl, rfl⟩
  | some n =>
    obtain ⟨r', hread⟩ := h.read hd htarget (wanted_pos hwanted)
    have hattached : world.attached (some path) r = r.emptied := by
      rw [World.attached, World.content, hempty, hfaults, Option.getD_some, PgzfReader.emptied]
    have hcall : onReader (some path) .ofIo r (PgzfReader.read n) world = .ok ([],
        r') (world.consumed (some path) r'.inner) := by
      rw [onReader, hattached, hread]
    exact ⟨_, bind_ok hcall, rfl, rfl⟩

end Pgzf
