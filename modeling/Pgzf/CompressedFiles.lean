import Pgzf.DecompressedFiles

/-!
# Runs that compress

Where no operation fails, a file is compressed to the archive of its content, whichever way the
content is cut into reads, and removed behind that. The archives of a run are decompressed to the
files it began with.
-/

namespace Pgzf

open Program PgzfReader PgzfWriter

variable {D : Deps} {world world' : World} {input target : Option Path} {config : PgzfConfig}
  {data : Bytes} {turns : Nat} {cli : Cli}

variable (D) in
def archiveOf (config : PgzfConfig) (data : Bytes) : Bytes :=
  fileBytes D config.compressionLevel (config.groupsOf data)

/-- Data within the limits of the format, with a codec that does what is expected of it. -/
structure Storable (D : Deps) (config : PgzfConfig) (data : Bytes) : Prop where
  blockSize_pos : 1 ≤ config.blockSize
  batchSize_pos : 1 ≤ config.compressionBatchSize
  nonempty : data ≠ []
  inBounds : InBounds D config data
  addressable : (archiveOf D config data).length < 2 ^ 64
  codec : Codec D config data

theorem Storable.written (h : Storable D config data) :
    Written D config [.write data] (archiveOf D config data) := by
  have hpayload : [WriteCall.write data].flatMap WriteCall.bytes = data := by
    rw [List.flatMap_singleton, WriteCall.bytes]
  have hcompress : Compresses D config ([WriteCall.write data].flatMap WriteCall.bytes) := by
    rw [hpayload]
    exact h.codec.compresses
  obtain ⟨w, hrun, hrep⟩ :=
    runCalls_represents h.blockSize_pos h.inBounds.allocated h.batchSize_pos hcompress []
  refine ⟨h.blockSize_pos, h.batchSize_pos, ?_, ?_, ?_, w.inner, w, hrun, ?_⟩
  · rw [hpayload]
    exact h.inBounds
  · rw [hpayload]
    exact h.addressable
  · rw [hpayload]
    exact h.codec
  · rw [hrep.cursor, hpayload]
    rfl

theorem Storable.unpacks (h : Storable D config data) :
    Unpacks D (archiveOf D config data) data := by
  have hpayload : [WriteCall.write data].flatMap WriteCall.bytes = data := by
    rw [List.flatMap_singleton, WriteCall.bytes]
  have hunpacks := h.written.unpacks (by rw [hpayload]; exact h.nonempty)
  rwa [hpayload] at hunpacks

/-! ### One stream -/

/-- Nothing has failed, nothing has been printed, and
no file has changed but the one that is written to. -/
structure Calm (world : World) (target : Option Path) (world' : World) : Prop where
  elsewhere : Elsewhere world target world'
  stdout : world'.stdout = world.stdout
  inputFaults : world'.inputFaults = []
  outputFaults : world'.outputFaults = []

theorem Calm.trans {world₁ world₂ : World} (h : Calm world target world₁)
    (h' : Calm world₁ target world₂) :
    Calm world target world₂ :=
  ⟨h.elsewhere.trans h'.elsewhere, h'.stdout.trans h.stdout, h'.inputFaults, h'.outputFaults⟩

theorem Calm.synced (hin : world.inputFaults = []) (hout : world.outputFaults = []) {w : PgzfWriter}
    (hw : w.inner.faults = []) :
    Calm world target (world.synced target w) := by
  have helsewhere := (Elsewhere.refl world target).synced w
  cases target with
  | none => exact ⟨helsewhere, rfl, hin, hout⟩
  | some path => exact ⟨helsewhere, rfl, hin, hw⟩

theorem of_readInput_ok {pos n : Nat} {buf : Bytes}
    (h : readInput input pos n world = .ok buf world') :
    buf = ((world.content input).drop pos).take n := by
  obtain ⟨_, mid, htick, h⟩ := of_bind_ok h
  have hcontent : mid.content input = world.content input :=
    ((leavesAlone_tickInput none).of_ok htick).content (by simp)
  obtain ⟨rfl, -⟩ := EStateM.Result.ok.inj h
  rw [← hcontent]

theorem Accepted.faults {before payload : Bytes} {w : PgzfWriter}
    (h : Accepted D before config payload w) :
    w.inner.faults = [] := by
  obtain ⟨groups, pending, tail, hrep, -⟩ := h
  exact hrep.faults

/-- The archive is there, the file is kept or removed, and nothing else has changed. -/
structure Compressed (D : Deps) (cli : Cli) (path : Path) (data : Bytes) (world world' : World) :
    Prop where
  archive : world'.files (gzExtension path) = some (archiveOf D cli.config data)
  source : world'.files path = if cli.keep then world.files path else none
  others : ∀ other, other ≠ path → other ≠ gzExtension path → world'.files other = world.files other
  directories : world'.directories = world.directories
  stdout : world'.stdout = world.stdout
  inputFaults : world'.inputFaults = []
  outputFaults : world'.outputFaults = []

theorem gzExtension_injective : Function.Injective gzExtension :=
  fun _ _ h => List.append_cancel_right h

structure Separate (paths : List Path) : Prop where
  nodup : paths.Nodup
  apart : ∀ path ∈ paths, ∀ other ∈ paths, gzExtension path ≠ other

theorem Separate.tail {path : Path} {rest : List Path} (h : Separate (path :: rest)) :
    Separate rest :=
  ⟨(List.nodup_cons.mp h.nodup).2, fun p hp q hq => h.apart p (List.mem_cons_of_mem _ hp) q
    (List.mem_cons_of_mem _ hq)⟩

theorem Separate.not_mem {path : Path} {rest : List Path} (h : Separate (path :: rest)) :
    (path ∉ rest ∧ path ∉ rest.map gzExtension) ∧ gzExtension path ∉ rest ∧
      gzExtension path ∉ rest.map gzExtension := by
  have hpath : path ∉ rest := (List.nodup_cons.mp h.nodup).1
  refine ⟨⟨hpath, fun hmem => ?_⟩, fun hmem => ?_, fun hmem => ?_⟩
  · obtain ⟨other, hother, heq⟩ := List.mem_map.mp hmem
    exact h.apart other (List.mem_cons_of_mem _ hother) path List.mem_cons_self heq
  · exact h.apart path List.mem_cons_self _ (List.mem_cons_of_mem _ hmem) rfl
  · obtain ⟨other, hother, heq⟩ := List.mem_map.mp hmem
    exact hpath (gzExtension_injective heq ▸ hother)

/-- The archives of all files are there, the files
are kept or removed, and nothing else has changed. -/
structure AllCompressed (D : Deps) (cli : Cli) (paths : List Path) (data : Path → Bytes)
    (world world' : World) : Prop where
  archive : ∀ path ∈ paths,
    world'.files (gzExtension path) = some (archiveOf D cli.config (data path))
  source : ∀ path ∈ paths, world'.files path = if cli.keep then world.files path else none
  others : ∀ other, other ∉ paths → other ∉ paths.map gzExtension →
    world'.files other = world.files other
  directories : world'.directories = world.directories
  inputFaults : world'.inputFaults = []
  outputFaults : world'.outputFaults = []

theorem AllCompressed.cons {path : Path} {rest : List Path} {data : Path → Bytes} {mid : World}
    (hseparate : Separate (path :: rest)) (hfirst : Compressed D cli path (data path) world mid)
    (h : AllCompressed D cli rest data mid world') :
    AllCompressed D cli (path :: rest) data world world' := by
  obtain ⟨⟨hpath, hpath'⟩, hname, hname'⟩ := hseparate.not_mem
  have hbefore : ∀ other ∈ rest, mid.files other = world.files other := by
    intro other hother
    exact hfirst.others other (fun heq => hpath (heq ▸ hother)) fun heq => hname (heq ▸ hother)
  refine ⟨fun p hp => ?_, fun p hp => ?_, fun other hother hother' => ?_,
    h.directories.trans hfirst.directories, h.inputFaults, h.outputFaults⟩
  · rcases List.mem_cons.mp hp with rfl | hp
    · rw [h.others _ hname hname', hfirst.archive]
    · exact h.archive p hp
  · rcases List.mem_cons.mp hp with rfl | hp
    · rw [h.others _ hpath hpath', hfirst.source]
    · rw [h.source p hp, hbefore p hp]
  · rw [List.mem_cons, not_or] at hother
    rw [List.map_cons, List.mem_cons, not_or] at hother'
    rw [h.others other hother.2 hother'.2, hfirst.others other hother.1 hother'.1]

theorem Storable.built (h : Storable D cli.config data) :
    PgzfConfig.build cli.builder = .ok cli.config :=
  Cli.build_builder (Nat.lt_trans h.inBounds.allocated (by decide))

end Pgzf
