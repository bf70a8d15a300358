import Pgzf.Labels

/-!
# Sessions with raw reads

Reads, seeks, `read_blocks` and raw reads in any order. The label of a raw block is the number of
the block as long as no raw read comes before a seek is carried out, `seek_to_block` goes to the
first block only, and no read is served by the cache alone.
-/

namespace Pgzf

open PgzfReader PgzfIndex

variable {D : Deps} {file : Bytes} {index : PgzfIndex} {raws blocks : List Bytes}
  {r r' : PgzfReader D}

/-! ### Reads -/

/-- A refill that succeeds queues the next batch, or nothing but the end is noted. -/
theorem of_fillReadahead_ok (hd : Describes D file index blocks) {p : Nat}
    (hin : r.inner = ⟨file, p, []⟩) (hpgzf : r.isPgzf = true) (hindex : r.index = some index)
    (hsound : r.blockCache.Sound blocks) (hsize : 0 < r.readaheadSize)
    (hrun : fillReadahead r = .ok () r') :
    (∃ eof, r' = { r with eof := eof }) ∨
      r.nextBlockIndex < blocks.length ∧ r.readahead = [] ∧
        (∀ limit, r.readaheadMemoryLimit = some limit → r.totalMemoryUsage < limit) ∧
        ∃ q, r' = { r with
            inner := ⟨file, q, []⟩
            readahead := (blocks.drop r.nextBlockIndex).take (batchStop blocks r r.nextBlockIndex -
              r.nextBlockIndex)
            nextBlockIndex :=
              refillEnd r.blockCache r.nextBlockIndex (batchStop blocks r r.nextBlockIndex)
            blockCache := refillCache blocks r.blockCache r.nextBlockIndex
              (batchStop blocks r r.nextBlockIndex) } ∧
          (missing r.blockCache r.nextBlockIndex (batchStop blocks r r.nextBlockIndex) ≠ [] →
            q = (index.compressedOffset (refillEnd r.blockCache r.nextBlockIndex
              (batchStop blocks r r.nextBlockIndex))).getD index.totalCompressed) := by
  by_cases hneeds : NeedsRefill index r
  · by_cases hfit : r.nextBlockIndex + r.readaheadSize < 2 ^ 64
    · obtain ⟨hempty, hlimit, hlt⟩ := hneeds
      rw [hd.blockCount] at hlt
      obtain ⟨q, hfill, hstands⟩ :=
        fillReadahead_eq hd hin hpgzf hindex hempty hsound hlimit hsize hlt hfit
      obtain ⟨-, rfl⟩ := EStateM.Result.ok.inj (hfill.symm.trans hrun)
      exact .inr ⟨hlt, hempty, hlimit, q, rfl, hstands⟩
    · rw [fillReadahead_overflow hpgzf hindex hneeds (Nat.not_lt.mp hfit)] at hrun
      exact absurd hrun (by simp)
  · obtain ⟨eof, hfill⟩ := fillReadahead_idle hpgzf hindex hneeds
    obtain ⟨-, rfl⟩ := EStateM.Result.ok.inj (hfill.symm.trans hrun)
    exact .inl ⟨eof, rfl⟩

/-- A refill keeps the source and the label in step, unless the cache serves the whole batch. -/
theorem Labelled.fillReadahead (hl : Laid D file index raws blocks)
    (h : Labelled file index raws blocks r) (hnone : r.pendingSeek = none)
    (hmissing : r.nextBlockIndex < blocks.length → r.readahead = [] →
      (∀ limit, r.readaheadMemoryLimit = some limit → r.totalMemoryUsage < limit) →
      missing r.blockCache r.nextBlockIndex (batchStop blocks r r.nextBlockIndex) ≠ [])
    (hrun : fillReadahead r = .ok () r') :
    Labelled file index raws blocks r' ∧ r'.pendingSeek = none ∧
      ((∃ eof, r' = { r with eof := eof }) ∨ r'.currentBlock = r.currentBlock ∧
        ∃ hlt : r.nextBlockIndex < blocks.length, ∃ rest, r'.readahead = blocks[r.nextBlockIndex] ::
          rest) := by
  obtain ⟨p, hin⟩ := h.inner
  have hstep := h.inStep hnone
  rcases of_fillReadahead_ok hl.described hin h.isPgzf h.index_eq h.sound h.readaheadSize hrun with
    ⟨eof, rfl⟩ | ⟨hlt, hempty, hlimit, q, rfl, hstands⟩
  · exact ⟨⟨h.inner, h.isPgzf, h.index_eq, h.readaheadSize, h.sound, fun _ => hstep.congr rfl rfl⟩,
      hnone, .inl ⟨eof, rfl⟩⟩
  · have hstop : r.nextBlockIndex < batchStop blocks r r.nextBlockIndex := by
      have := h.readaheadSize
      rw [batchStop]
      omega
    have hle : batchStop blocks r r.nextBlockIndex ≤ blocks.length := Nat.min_le_left _ _
    refine ⟨⟨⟨q, rfl⟩, h.isPgzf, h.index_eq, h.readaheadSize, sound_refillCache h.sound hle,
      fun _ => ?_⟩, hnone, .inr ?_⟩
    · apply hl.inStep (Nat.le_trans (refillEnd_le _ _ _) hle)
      rw [hstands (hmissing hlt hempty hlimit)]
    · refine ⟨rfl, hlt, (blocks.drop (r.nextBlockIndex + 1)).take
        (batchStop blocks r r.nextBlockIndex - (r.nextBlockIndex + 1)), ?_⟩
      simp only
      rw [List.drop_eq_getElem_cons hlt, show batchStop blocks r r.nextBlockIndex -
        r.nextBlockIndex =
        (batchStop blocks r r.nextBlockIndex - (r.nextBlockIndex + 1)) + 1 by omega,
          List.take_succ_cons]

/-- A pending seek puts the two in step, and leaves bytes to serve or the end noted. -/
theorem Labelled.executePendingSeek (hl : Laid D file index raws blocks)
    (h : Labelled file index raws blocks r) {target : Nat} (hpending : r.pendingSeek = some target)
    (hrun : executePendingSeek r = .ok () r') :
    Labelled file index raws blocks r' ∧ r'.pendingSeek = none ∧
      (r'.currentPos < r'.currentBlock.length ∨ r'.eof = true) := by
  have hd := hl.described
  obtain ⟨p, hin⟩ := h.inner
  by_cases hpos : target ≤ blocks.flatten.length
  · obtain ⟨i, k, hseek, hi, -, hinside, -⟩ := seekByte_describes hd hpos
    obtain ⟨offset, hoffset⟩ := hd.compressedOffset_isSome hi
    cases hlookup : r.blockCache.lookup i with
    | some data =>
      -- the source goes behind the cached block
      obtain ⟨hlt, hdata⟩ := List.getElem?_eq_some_iff.mp (h.sound.lookup (i := i) hlookup)
      rw [executePendingSeek_hit hpending h.index_eq hseek hlookup (seekStart_inner hin _)] at hrun
      obtain ⟨-, rfl⟩ := EStateM.Result.ok.inj hrun
      refine ⟨⟨⟨_, rfl⟩, h.isPgzf, h.index_eq, h.readaheadSize, h.sound.get i,
        fun _ => hl.inStep hlt rfl⟩, rfl, .inl ?_⟩
      rw [← hdata]
      exact hinside hlt
    | none =>
      -- the source goes to the block, which the refill behind it misses
      rw [executePendingSeek_miss hpending h.index_eq hseek hlookup hoffset (seekStart_inner hin _)]
        at hrun
      obtain ⟨_, mid, hfill, hserve⟩ := Program.of_bind_ok hrun
      have hfront : Labelled file index raws blocks (r.movedTo ⟨file, offset, []⟩ i) := by
        refine ⟨⟨offset, rfl⟩, h.isPgzf, h.index_eq, h.readaheadSize, h.sound.get i,
          fun _ => hl.inStep hi ?_⟩
        simp only [movedTo, hoffset, Option.getD_some]
      obtain ⟨hmid, hnone, hqueue⟩ := hfront.fillReadahead hl rfl (fun hlt _ _ => by
        have hstop : i < batchStop blocks r i := by
          have := h.readaheadSize
          simp only [movedTo] at hlt
          rw [batchStop]
          omega
        have hmem : i ∈ missing (r.blockCache.get i).2 i (batchStop blocks r i) :=
          mem_missing.mpr ⟨⟨Nat.le_refl i, hstop⟩, (BlockCache.lookup_get _ _ _).trans hlookup⟩
        exact List.ne_nil_of_mem hmem) hfill
      rw [Program.bind_ok (Program.get_apply _)] at hserve
      rcases hqueue with ⟨eof, rfl⟩ | ⟨-, hlt, rest, hrest⟩
      · simp only [movedTo, Program.set_apply] at hserve
        obtain ⟨-, rfl⟩ := EStateM.Result.ok.inj hserve
        exact ⟨⟨hmid.inner, h.isPgzf, hmid.index_eq, h.readaheadSize, hmid.sound,
          fun _ => (hmid.inStep rfl).congr rfl rfl⟩, rfl, .inr rfl⟩
      · simp only [hrest, Program.set_apply] at hserve
        obtain ⟨-, rfl⟩ := EStateM.Result.ok.inj hserve
        exact ⟨⟨hmid.inner, hmid.isPgzf, hmid.index_eq, hmid.readaheadSize, hmid.sound,
          fun _ => (hmid.inStep hnone).congr rfl rfl⟩, hnone, .inl (hinside hlt)⟩
  · -- the target is behind the end
    rw [executePendingSeek_refused hpending h.index_eq
      (seekByte_beyond (by rw [hd.totalUncompressed]; omega))] at hrun
    exact absurd hrun (by simp)

theorem Labelled.read_placed (hl : Laid D file index raws blocks)
    (h : Labelled file index raws blocks r) (hnone : r.pendingSeek = none)
    (hcached : ¬ FullyCached index r) {n : Nat} (hn : n ≠ 0) {out : Bytes}
    (hrun : PgzfReader.read n r = .ok out r') : Labelled file index raws blocks r' := by
  have hserve : ∀ {mid last : PgzfReader D} {found : Option Bytes},
      Labelled file index raws blocks mid →
      mid.pendingSeek = none → serveNext n mid = .ok found last →
          Labelled file index raws blocks last := by
    intro mid last found hmid hidle hok
    cases hqueue : mid.readahead with
    | nil =>
      obtain ⟨-, rfl⟩ := EStateM.Result.ok.inj ((serveNext_nil hqueue n).symm.trans hok)
      exact hmid
    | cons next rest =>
      obtain ⟨-, rfl⟩ := EStateM.Result.ok.inj ((serveNext_cons hqueue n).symm.trans hok)
      exact ⟨hmid.inner, hmid.isPgzf, hmid.index_eq, hmid.readaheadSize, hmid.sound,
        fun _ => (hmid.inStep hidle).congr rfl rfl⟩
  rw [PgzfReader.read, if_neg hn, Program.bind_ok (executePendingSeek_none hnone),
    Program.bind_ok (Program.get_apply _)] at hrun
  by_cases hleft : r.currentPos < r.currentBlock.length
  · simp only [hleft, if_true] at hrun
    rw [Program.bind_ok (Program.set_apply _ _), Program.pure_apply] at hrun
    obtain ⟨-, rfl⟩ := EStateM.Result.ok.inj hrun
    exact ⟨h.inner, h.isPgzf, h.index_eq, h.readaheadSize, h.sound,
      fun _ => (h.inStep hnone).congr rfl rfl⟩
  · by_cases heof : r.eof = true
    · simp only [hleft, heof, if_false, if_true, Program.pure_apply] at hrun
      obtain ⟨-, rfl⟩ := EStateM.Result.ok.inj hrun
      exact h
    · simp only [hleft, heof, if_false, Bool.false_eq_true] at hrun
      rw [readNextBlock, Program.bind_ok (Program.get_apply _)] at hrun
      simp only [h.isPgzf, if_true] at hrun
      obtain ⟨found, mid, hfound, hlater⟩ := Program.of_bind_ok hrun
      cases hqueue : r.readahead with
      | cons next rest =>
        obtain ⟨rfl, rfl⟩ := EStateM.Result.ok.inj ((serveNext_cons hqueue n).symm.trans hfound)
        simp only [Program.pure_apply] at hlater
        obtain ⟨-, rfl⟩ := EStateM.Result.ok.inj hlater
        exact hserve h hnone (serveNext_cons hqueue n)
      | nil =>
        -- the queue is refilled, and not from the cache alone
        obtain ⟨rfl, rfl⟩ := EStateM.Result.ok.inj ((serveNext_nil hqueue n).symm.trans hfound)
        simp only at hlater
        obtain ⟨_, refilled, hfill, hbehind⟩ := Program.of_bind_ok hlater
        obtain ⟨hrefilled, hidle, -⟩ :=
          h.fillReadahead hl hnone (fun hlt _ hlimit hnil => hcached (by
            refine ⟨hnone, ?_, by rwa [hl.described.blockCount], fun limit hcase => ?_, ?_⟩
            · rw [refillStart, hnone]
              simp only [hleft, heof, hqueue, ne_eq, not_true, Bool.false_eq_true, or_self,
                if_false]
            · have hbelow := hlimit limit hcase
              rw [totalMemoryUsage, readaheadMemoryUsage, hqueue, List.map_nil, List.sum_nil,
                Nat.add_zero] at hbelow
              rw [refillUsage, hnone]
              exact hbelow
            · rw [hl.described.blockCount]
              exact hnil)) hfill
        obtain ⟨served, last, hserved, hend⟩ := Program.of_bind_ok hbehind
        have hlast := hserve hrefilled hidle hserved
        cases served with
        | some out =>
          obtain ⟨-, rfl⟩ := EStateM.Result.ok.inj hend
          exact hlast
        | none =>
          have hsame : last = refilled := by
            cases hqueue : refilled.readahead with
            | nil =>
              exact (EStateM.Result.ok.inj ((serveNext_nil hqueue n).symm.trans hserved)).2.symm
            | cons next rest =>
              exact absurd (EStateM.Result.ok.inj ((serveNext_cons hqueue n).symm.trans hserved)).1
                (by simp)
          subst hsame
          simp only at hend
          rw [Program.bind_ok (Program.modify_apply _ _), Program.pure_apply] at hend
          obtain ⟨-, rfl⟩ := EStateM.Result.ok.inj hend
          exact ⟨hlast.inner, hlast.isPgzf, hlast.index_eq, hlast.readaheadSize, hlast.sound,
            fun _ => (hlast.inStep hidle).congr rfl rfl⟩

/-- A read that no fully cached batch refills keeps the two in step. -/
theorem Labelled.read (hl : Laid D file index raws blocks) (h : Labelled file index raws blocks r)
    {n : Nat} (hcached : 0 < n → ¬ FullyCached index r) {out : Bytes}
    (hrun : PgzfReader.read n r = .ok out r') :
    Labelled file index raws blocks r' := by
  by_cases hn : n = 0
  · subst hn
    obtain ⟨-, rfl⟩ := EStateM.Result.ok.inj ((read_zero r).symm.trans hrun)
    exact h
  · cases hpending : r.pendingSeek with
    | none => exact h.read_placed hl hpending (hcached (Nat.pos_of_ne_zero hn)) hn hrun
    | some target =>
      have hseek := hrun
      rw [PgzfReader.read, if_neg hn] at hseek
      obtain ⟨_, mid, hseek, -⟩ := Program.of_bind_ok hseek
      obtain ⟨hmid, hidle, hserved⟩ := h.executePendingSeek hl hpending hseek
      rw [read_of_executePendingSeek hseek hidle hn] at hrun
      refine hmid.read_placed hl hidle (fun hcached => ?_) hn hrun
      -- behind the seek nothing is refilled
      have hstart := hcached.2.1
      rw [refillStart, hidle] at hstart
      rcases hserved with hleft | heof
      · simp [hleft] at hstart
      · simp [heof] at hstart

/-! ### Sessions -/

/-- The calls of a session that may read raw blocks. -/
inductive BlockCall where
  | read (n : Nat)
  | seekToByte (offset : Nat)
  | seekToBlock (i : Int)
  | seek (pos : SeekFrom)
  | readBlocks (start count : Nat)
  | readOneRawBlock
  deriving DecidableEq, Repr

/-- A call, of which only the state it leaves matters. -/
def BlockCall.run : BlockCall → Prog (PgzfReader D) Unit
  | .read n => do let _ ← PgzfReader.read n
  | .seekToByte offset => PgzfReader.seekToByte offset
  | .seekToBlock i => PgzfReader.seekToBlock i
  | .seek pos => do let _ ← PgzfReader.seek pos
  | .readBlocks start count => do let _ ← PgzfReader.readBlocks start count
  | .readOneRawBlock => do let _ ← PgzfReader.readOneRawBlock

/-- What a call needs for the source and the label to stay in step: no raw read while a seek is
pending, `seek_to_block` only to the first block, and no read refilled by the cache alone. -/
def KeepsStep (index : PgzfIndex) (r : PgzfReader D) : BlockCall → Prop
  | .read n => 0 < n → ¬ FullyCached index r
  | .seekToBlock i => resolvedBlock index.blockCount i = 0
  | .readOneRawBlock => r.pendingSeek = none
  | _ => True

theorem Labelled.call (hl : Laid D file index raws blocks) (h : Labelled file index raws blocks r)
    {call : BlockCall} (hkeeps : KeepsStep index r call) {u : Unit} (hrun : call.run r = .ok u r') :
    Labelled file index raws blocks r' := by
  have hignored : ∀ {α : Type} {m : Prog (PgzfReader D) α}, (do let _ ← m) r = .ok u r' →
      ∃ a, m r = .ok a r' := by
    intro α m hok
    obtain ⟨a, mid, hm, hok⟩ := Program.of_bind_ok hok
    obtain ⟨-, rfl⟩ := EStateM.Result.ok.inj hok
    exact ⟨a, hm⟩
  cases call with
  | read n =>
    obtain ⟨out, hrun⟩ := hignored hrun
    exact h.read hl hkeeps hrun
  | seekToByte offset => exact h.seekToByte hrun
  | seekToBlock i => exact h.seekToBlock hl hkeeps hrun
  | seek pos =>
    obtain ⟨target, hrun⟩ := hignored hrun
    exact h.seek hrun
  | readBlocks start count =>
    obtain ⟨out, hrun⟩ := hignored hrun
    exact h.readBlocks hl hrun
  | readOneRawBlock =>
    obtain ⟨found, hrun⟩ := hignored hrun
    exact h.readOneRawBlock hl hkeeps hrun

/-! ### Written files -/

section Written

open PgzfWriter

theorem compressedSizes_specMetas {groups : List SpecGroup} (h : ∀ group ∈ groups, group.Conforms D)
    (g : Nat) :
    (specMetas g groups).map (fun entry => entry.compressedSize.toNat) =
      (specMembers D groups).map List.length := by
  induction groups generalizing g with
  | nil => rfl
  | cons group groups ih =>
    have hentries : (group.entries.mapIdx fun i e =>
        (⟨UInt32.ofNat g, UInt32.ofNat i, e.compressedSize, e.uncompressedSize⟩ : BlockMeta)).map
          (fun entry => entry.compressedSize.toNat) = group.entries.map fun e =>
              e.compressedSize.toNat := by
      apply List.ext_getElem?
      intro i
      simp only [List.getElem?_map, List.getElem?_mapIdx, Option.map_map, Function.comp_def]
    have hcons : specMembers D (group :: groups) = group.members D (group.gc D) ++
        specMembers D groups :=
      List.flatMap_cons
    rw [specMetas, List.map_append, hentries, (h group List.mem_cons_self).compressedSizes,
      ih (fun g hg => h g (List.mem_cons_of_mem _ hg)), hcons, List.map_append,
      SpecGroup.map_length_members D 0 (group.gc D)]

variable {config : PgzfConfig} {calls : List WriteCall}

theorem new_nil (D : Deps) (q : Nat) :
    new D ⟨[], q, []⟩ = .error (.error (.io .unexpectedEof)) ⟨[], 0, []⟩ := by
  rw [new, Program.bind_ok (Source.seekStart_apply _ _ _),
    Program.bind_error
      (Source.readExact_eof (show ([] : Bytes).length - 0 < gzipFixedHeaderSize by decide))]
  rfl

/-- The file of a writer is laid out as the index says with which it is opened. -/
theorem laid_written (hlimits : WithinLimits D (2 ^ 30) config (calls.flatMap WriteCall.bytes))
    (hcodec : Codec D config (calls.flatMap WriteCall.bytes)) {out : Sink} {w : PgzfWriter}
    (hrun : runCalls D (Sink.atEnd []) config calls = .ok out w) {reader : PgzfReader D}
    {s' : Source} (hnew : new D ⟨out.cursor.bytes, 0, []⟩ = .ok reader s') :
    ∃ index raws, reader = fresh D out.cursor.bytes index ∧
      Laid D out.cursor.bytes index raws (config.blocksOf (calls.flatMap WriteCall.bytes)) ∧
      index.blocks.map (fun entry => entry.compressedSize.toNat) = raws.map List.length := by
  obtain ⟨out', w', groups, hrun', hconforms, hbytes, haddress, hdatas, -⟩ :=
    specFile_of_runCalls hlimits hcodec
  obtain ⟨w'', hrun'', hrep⟩ := runCalls_represents hlimits.blockSize_pos hlimits.allocated
    hlimits.batchSize_pos hcodec.compresses []
  obtain ⟨rfl, rfl⟩ := EStateM.Result.ok.inj (hrun.symm.trans hrun')
  obtain ⟨rfl, rfl⟩ := EStateM.Result.ok.inj (hrun.symm.trans hrun'')
  have hfile := hrep.cursor
  rw [List.nil_append] at hfile
  by_cases hempty : calls.flatMap WriteCall.bytes = []
  · -- an empty file is not opened
    have hnil : w.inner.cursor.bytes = [] := by
      rw [hfile, hempty]
      rfl
    rw [hnil, new_nil] at hnew
    exact absurd hnew (by simp)
  · have hgroups : groups ≠ [] := by
      rintro rfl
      rw [← flatten_blocksOf hlimits.blockSize_pos (calls.flatMap WriteCall.bytes),
        ← hdatas] at hempty
      exact hempty rfl
    have hopen := new_specFile hconforms hgroups (by rwa [hbytes]) 0
    have hfileEq : w.inner.cursor.bytes = fileBytes D config.compressionLevel
        (config.groupsOf (calls.flatMap WriteCall.bytes)) := by rw [hfile]
    have hstands :=
      stands_specFile hconforms (show (specFile D groups).drop 0 = specFile D groups ++ [] from
        (List.append_nil _).symm)
    rw [Nat.zero_add] at hstands
    have hoffsets : (specIndex D groups).compressedOffsets = specOffsets D 0 groups ++
      [(specFile D groups).length] := rfl
    have htotal : (specIndex D groups).totalCompressed = (specFile D groups).length := by
      rw [PgzfIndex.totalCompressed, hoffsets, List.getLast?_concat, Option.getD_some]
    rw [← hoffsets, hdatas, hbytes] at hstands
    rw [hbytes] at hopen htotal
    obtain ⟨rfl, -⟩ := EStateM.Result.ok.inj (hnew.symm.trans hopen)
    refine ⟨_, _, rfl, ⟨?_, hstands, htotal⟩, compressedSizes_specMetas hconforms 0⟩
    -- the index is that of the groups of the payload
    have hwritten := new_written hlimits (by decide) hempty 0
    rw [← hfileEq, hopen] at hwritten
    have hindex := congrArg PgzfReader.index (EStateM.Result.ok.inj hwritten).1
    have hd := describes_indexOf hlimits.fits hcodec.inflates []
    rw [List.append_nil, flatten_groupsOf] at hd
    rw [Option.some.inj hindex, hfileEq]
    exact hd

theorem labelled_configured {file : Bytes} {index : PgzfIndex} {raws blocks : List Bytes}
    (hl : Laid D file index raws blocks) (size capacity : Nat)
    (cacheLimit memoryLimit : Option Nat) :
    Labelled file index raws blocks { (fresh D file index).configured size capacity cacheLimit with
      readaheadMemoryLimit := memoryLimit } := by
  have htracks := tracks_configured D file index blocks size capacity cacheLimit
  have hfront : ((fresh D file index).configured size capacity cacheLimit).inner = ⟨file, 0, []⟩ ∧
      ((fresh D file index).configured size capacity cacheLimit).nextBlockIndex = 0 := by
    cases cacheLimit with
    | none => exact ⟨rfl, rfl⟩
    | some maxBytes => exact ⟨rfl, rfl⟩
  refine ⟨htracks.inner, htracks.isPgzf, htracks.index_eq, htracks.readaheadSize, htracks.sound,
    fun _ => ⟨?_, 0, hfront.1, ?_⟩⟩
  · simp only [hfront.2, Nat.zero_le]
  · simp only [hfront.2, List.drop_zero]
    exact hl.stands

/-- The bytes of the file that the index lists as block `i`. -/
def listedBytes (file : Bytes) (index : PgzfIndex) (i : Nat) : Option Bytes := do
  let offset ← index.compressedOffset i
  let entry ← index.blockMeta i
  if offset + entry.compressedSize.toNat ≤ file.length then
    some ((file.drop offset).take entry.compressedSize.toNat)
  else none

/-- The label of a raw block is the number of a block,
and its bytes are those listed for that block. -/
def TrueLabel (file : Bytes) (index : PgzfIndex) (block : RawBlock) : Prop :=
  block.blockIndex < index.blockCount ∧ listedBytes file index block.blockIndex = some block.raw

instance (file : Bytes) (index : PgzfIndex) (block : RawBlock) :
    Decidable (TrueLabel file index block) :=
  inferInstanceAs (Decidable (_ ∧ _))

/-- In a session whose calls all keep the source and the
label in step, a data block read raw has its true label. -/
theorem raw_label_of_keepsStep
    (hlimits : WithinLimits D (2 ^ 30) config (calls.flatMap WriteCall.bytes))
    (hcodec : Codec D config (calls.flatMap WriteCall.bytes)) {out : Sink} {w : PgzfWriter}
    (hrun : runCalls D (Sink.atEnd []) config calls = .ok out w) {reader : PgzfReader D}
    {s' : Source} (hnew : new D ⟨out.cursor.bytes, 0, []⟩ = .ok reader s') {index : PgzfIndex}
    (hindex : reader.index = some index) (size capacity : Nat)
    (cacheLimit memoryLimit : Option Nat) {session : List BlockCall} {answers : List Unit}
    {r r' : PgzfReader D}
    (hkeeps : Program.AllSteps BlockCall.run (KeepsStep index)
      { reader.configured size capacity cacheLimit with
        readaheadMemoryLimit := memoryLimit } session)
    (hsession : (session.mapM BlockCall.run) { reader.configured size capacity cacheLimit with
      readaheadMemoryLimit := memoryLimit } = .ok answers r)
    (hlast : KeepsStep index r .readOneRawBlock) {block : RawBlock}
    (hraw : PgzfReader.readOneRawBlock r = .ok (some block) r') (hdata : block.blockType ≠ .idx) :
    TrueLabel out.cursor.bytes index block := by
  obtain ⟨index', raws, rfl, hl, hsizes⟩ := laid_written hlimits hcodec hrun hnew
  obtain rfl : index' = index := Option.some.inj hindex
  have hstart := labelled_configured hl size capacity cacheLimit memoryLimit
  have hend :=
    hkeeps.invariant (fun s call u s' hs hcall hok => hs.call hl hcall hok) hstart hsession
  obtain ⟨-, -, hfound⟩ := (hend.inStep hlast).readOneRawBlock hl hraw
  obtain ⟨hlabel, hlt, hget, offset, headerSize, ty, hoffset, hat⟩ := hfound block rfl hdata
  rw [← hlabel] at hlt hget hoffset
  rw [← hl.described.blockCount, PgzfIndex.blockCount] at hlt
  -- the index lists the length of the member
  have hsize : index'.blocks[block.blockIndex].compressedSize.toNat = block.raw.length := by
    have hlists := congrArg (fun sizes => sizes[block.blockIndex]?) hsizes
    simpa only [List.getElem?_map, hget, List.getElem?_eq_getElem hlt, Option.map_some,
      Option.some.injEq] using hlists
  refine ⟨hlt, ?_⟩
  rw [listedBytes, hoffset, blockMeta, List.getElem?_eq_getElem hlt]
  simp only [Option.bind_eq_bind, Option.bind_some, hsize, if_pos (length_of_memberAt hat).2,
    take_of_memberAt hat]

/-! ### Samples -/

/-- A session, with the seek pending behind it and what a raw read finds. -/
def sessionThenRaw (session : List BlockCall) :
    Prog (PgzfReader D) (Option Nat × Option RawBlock) := do
  let _ ← session.mapM BlockCall.run
  let r ← get
  let found ← PgzfReader.readOneRawBlock
  return (r.pendingSeek, found)

theorem of_sessionThenRaw {session : List BlockCall} {start : PgzfReader D} {pending : Option Nat}
    {found : Option RawBlock}
    (h : Program.outcome (sessionThenRaw session start) = .ok (pending, found)) :
    ∃ answers r r', (session.mapM BlockCall.run) start = .ok answers r ∧ r.pendingSeek = pending ∧
      PgzfReader.readOneRawBlock r = .ok found r' := by
  obtain ⟨last, hrun⟩ := Program.exists_of_outcome h
  obtain ⟨answers, r, hsession, hlater⟩ := Program.of_bind_ok hrun
  rw [Program.bind_ok (Program.get_apply _)] at hlater
  obtain ⟨found', r', hraw, hend⟩ := Program.of_bind_ok hlater
  obtain ⟨hpair, -⟩ := EStateM.Result.ok.inj hend
  obtain ⟨hpending, rfl⟩ := Prod.mk.inj hpair
  exact ⟨answers, r, r', hsession, hpending, hraw⟩

namespace Stored

def sampleWrites : List WriteCall := [.write sampleBufs.flatten]

theorem sample_written :
    ∃ out w s', runCalls deps (Sink.atEnd []) sampleConfig sampleWrites = .ok out w ∧
    out.cursor.bytes = sampleFile ∧
      new deps ⟨out.cursor.bytes, 0, []⟩ = .ok (fresh deps sampleFile sampleIndex) s' := by
  have hlimits : WithinLimits deps (2 ^ 30) sampleConfig (sampleWrites.flatMap WriteCall.bytes) :=
    sample_withinLimits
  have hcodec : Codec deps sampleConfig (sampleWrites.flatMap WriteCall.bytes) := sample_codec
  obtain ⟨w, hrun, hrep⟩ := runCalls_represents hlimits.blockSize_pos hlimits.allocated
    hlimits.batchSize_pos hcodec.compresses []
  have hbytes : w.inner.cursor.bytes = sampleFile := by
    rw [hrep.cursor]
    rfl
  refine ⟨w.inner, w, ⟨sampleFile, 0, []⟩, hrun, hbytes, ?_⟩
  rw [hbytes]
  exact new_written hlimits (by decide) (by decide) 0

def sampleReader : PgzfReader deps :=
  { (fresh deps sampleFile sampleIndex).configured 1 64 none with readaheadMemoryLimit := none }

end Stored

theorem raw_label_of_keepsStep_sample :
    ∃ out w s' answers r r' block,
      runCalls Stored.deps (Sink.atEnd []) Stored.sampleConfig Stored.sampleWrites = .ok out w ∧
      new Stored.deps ⟨out.cursor.bytes,
        0, []⟩ = .ok (fresh Stored.deps Stored.sampleFile Stored.sampleIndex) s' ∧
        ([.seekToByte 3, .read 1, .readBlocks 1 2].mapM BlockCall.run) Stored.sampleReader =
          .ok answers r ∧
          PgzfReader.readOneRawBlock r = .ok (some block) r' ∧
            TrueLabel out.cursor.bytes Stored.sampleIndex block := by
  obtain ⟨out, w, s', hrun, hbytes, hnew⟩ := Stored.sample_written
  have hrun' : Program.outcome
      (sessionThenRaw [.seekToByte 3, .read 1, .readBlocks 1 2] Stored.sampleReader) =
      .ok (none, some ⟨datHeader 34 ++ Stored.stream [103] ++ trailer Stored.deps [103],
          datHeaderSize, .dat, 3⟩) := by
    decide +kernel
  obtain ⟨answers, r, r', hsession, hidle, hraw⟩ := of_sessionThenRaw hrun'
  refine ⟨out, w, s', answers, r, r', _, hrun, hnew, hsession, hraw, ?_⟩
  refine raw_label_of_keepsStep Stored.sample_withinLimits Stored.sample_codec hrun hnew rfl 1 64
    none none ?_ hsession hidle hraw (by decide)
  refine ⟨trivial, fun _ s hseek => ?_⟩
  obtain ⟨-, rfl⟩ := EStateM.Result.ok.inj hseek
  exact ⟨fun _ hcached => absurd hcached.1 (by simp), fun _ _ _ => ⟨trivial, fun _ _ _ => trivial⟩⟩

/-- A seek to a block, a seek by bytes that is still pending, and a block served from the cache. -/
def Stored.driftSessions : List (List BlockCall) :=
  [[.seekToBlock 2], [.read 1, .seekToByte 0], [.read 2, .read 2, .seekToByte 0, .read 2, .read 2]]

/-- Behind each of them a raw block has the label of another one. -/
theorem raw_labels_drift :
    WithinLimits Stored.deps (2 ^ 30) Stored.sampleConfig
      (Stored.sampleWrites.flatMap WriteCall.bytes) ∧
      Codec Stored.deps Stored.sampleConfig (Stored.sampleWrites.flatMap WriteCall.bytes) ∧
      ∃ out w s', runCalls Stored.deps (Sink.atEnd []) Stored.sampleConfig Stored.sampleWrites =
        .ok out w ∧
        new Stored.deps ⟨out.cursor.bytes,
          0, []⟩ = .ok (fresh Stored.deps Stored.sampleFile Stored.sampleIndex) s' ∧
          ∀ session ∈ Stored.driftSessions, ∃ answers r r' block,
            (session.mapM BlockCall.run) Stored.sampleReader = .ok answers r ∧
              PgzfReader.readOneRawBlock r = .ok (some block) r' ∧ block.blockType ≠ .idx ∧
                ¬ TrueLabel out.cursor.bytes Stored.sampleIndex block := by
  obtain ⟨out, w, s', hrun, hbytes, hnew⟩ := Stored.sample_written
  refine ⟨Stored.sample_withinLimits, Stored.sample_codec, out, w, s', hrun, hnew, ?_⟩
  rw [hbytes]
  have hdrift : ∀ (session : List BlockCall) pending block,
      Program.outcome (sessionThenRaw session Stored.sampleReader) = .ok (pending, some block) →
        block.blockType ≠ .idx → ¬ TrueLabel Stored.sampleFile Stored.sampleIndex block →
          ∃ answers r r' block, (session.mapM BlockCall.run) Stored.sampleReader = .ok answers r ∧
            PgzfReader.readOneRawBlock r = .ok (some block) r' ∧ block.blockType ≠ .idx ∧
              ¬ TrueLabel Stored.sampleFile Stored.sampleIndex block := by
    intro session pending block hok hdata hlabel
    obtain ⟨answers, r, r', hsession, -, hraw⟩ := of_sessionThenRaw hok
    exact ⟨answers, r, r', block, hsession, hraw, hdata, hlabel⟩
  intro session hmem
  simp only [Stored.driftSessions, List.mem_cons, List.not_mem_nil, or_false] at hmem
  rcases hmem with rfl | rfl | rfl
  · exact hdrift _ none
      ⟨begHeader 47 81 ++ Stored.stream [101, 102] ++ trailer Stored.deps [101, 102],
        begHeaderSize, .beg, 0⟩
      (by decide +kernel) (by decide) (by decide +kernel)
  · exact hdrift _ (some 0)
      ⟨datHeader 35 ++ Stored.stream [99, 100] ++ trailer Stored.deps [99, 100], datHeaderSize,
        .dat, 0⟩
      (by decide +kernel) (by decide) (by decide +kernel)
  · exact hdrift _ none
      ⟨datHeader 35 ++ Stored.stream [99, 100] ++ trailer Stored.deps [99, 100], datHeaderSize,
        .dat, 2⟩
      (by decide +kernel) (by decide) (by decide +kernel)

end Written

end Pgzf
