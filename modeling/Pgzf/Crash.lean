import Pgzf.Limits

/-!
# Crash consistency

The content of the sink between any two operations of a writer: the groups whose length has been
written into their headers, and behind them some pieces of the next group, whose header still says
zero. The scan stops at that header, so what is read back is the finished groups and nothing of the
open one.
-/

namespace Pgzf

open PgzfReader PgzfWriter

variable {D : Deps} {level : Nat}

/-! ### Reading a file back -/

/-- `new` opens the file, and reading it to the end
delivers `payload`, whatever the sizes of the buffers. -/
def Recovers (D : Deps) (file payload : Bytes) : Prop :=
  ∃ reader s, new D ⟨file, 0, []⟩ = .ok reader s ∧
    ∀ sizes : List Nat, (∀ n ∈ sizes, 0 < n) → payload.length < sizes.length →
      ∃ r', readToEnd sizes reader = .ok (some payload) r'

/-- Whole groups, and what the scan stops at behind
them, are read back as the data of the groups. -/
theorem recovers_fileBytes {groups : List (List Bytes)}
    (hfits : ∀ blocks ∈ groups, GroupFits D level (2 ^ 30) blocks)
    (hinflates : ∀ blocks ∈ groups, GroupInflates D level blocks) {rest : Bytes}
    (hbase : gzipBase <+: fileBytes D level groups ++ rest) (hstops : Stops rest)
    (hsize : (fileBytes D level groups ++ rest).length < 2 ^ 64) :
    Recovers D (fileBytes D level groups ++ rest) groups.flatten.flatten := by
  have hle : (fileBytes D level groups).length < 2 ^ 64 := by
    rw [List.length_append] at hsize
    omega
  refine ⟨_, _, new_fileBytes hfits (by decide) hbase hstops hsize 0, ?_⟩
  intro sizes hsizes hlen
  exact fresh_readToEnd (describes_indexOf hfits hinflates rest)
    (fits_defaultReadahead D level groups hle) hsizes hlen

/-! ### The operations of a writer, cut short -/

/-- The number of headers written over: a write right behind a seek. -/
def backpatched : List SinkOp → Nat
  | [] => 0
  | .seek _ :: .writeAll _ :: ops => backpatched ops + 1
  | _ :: ops => backpatched ops

theorem backpatched_writes (pieces : List Bytes) (ops : List SinkOp) :
    backpatched (pieces.map SinkOp.writeAll ++ ops) = backpatched ops := by
  induction pieces with
  | nil => rfl
  | cons piece pieces ih => rw [List.map_cons, List.cons_append, backpatched, ih]; intros; simp_all

theorem backpatched_groupOps (start : Nat) (blocks : List Bytes) (ops : List SinkOp) :
    backpatched (groupOps D level start blocks ++ ops) = backpatched ops + 1 := by
  rw [groupOps, List.append_assoc, List.append_assoc, backpatched_writes]
  rfl

variable (D level) in
theorem take_groupPieces {blocks : List Bytes} (hne : blocks ≠ []) (n : Nat) :
    ∃ zc tail, ((groupPieces D level blocks).take (n + 1)).flatten = begHeader zc 0 ++ tail := by
  obtain ⟨first, rest, rfl⟩ := List.exists_cons_of_ne_nil hne
  refine ⟨memberZc D level begHeaderSize first, ?_⟩
  rw [groupPieces, typed, List.flatMap_cons, blockPieces]
  exact ⟨_, rfl⟩

theorem replay_take_patchOps (content : Bytes) {blocks : List Bytes} (hne : blocks ≠ [])
    (pos current m : Nat) :
    let ops :=
  (patchOps content.length (groupGc D level blocks) current ++ [SinkOp.streamPosition]).take m
    ((replay ops ⟨content ++ groupWith D level 0 blocks, pos⟩).bytes = content ++
      groupWith D level 0 blocks ∧ backpatched ops = 0) ∨
    ((replay ops ⟨content ++ groupWith D level 0 blocks, pos⟩).bytes = content ++
      groupBytes D level blocks ∧ backpatched ops = 1) := by
  have hpatch := overwrite_groupWith D level content hne (groupGc D level blocks)
  match m with
  | 0 | 1 | 2 => exact .inl ⟨rfl, rfl⟩
  | 3 | 4 => exact .inr ⟨hpatch, rfl⟩
  | m + 5 =>
    refine .inr ⟨?_, ?_⟩
    · rw [List.take_of_length_le (by simp [patchOps])]
      exact hpatch
    · rw [List.take_of_length_le (by simp [patchOps])]
      rfl

variable (D level) in
theorem replay_take_groupOps (content : Bytes) {blocks : List Bytes} (hne : blocks ≠ []) (n : Nat) :
    ((replay ((groupOps D level content.length blocks).take n) ⟨content, content.length⟩).bytes =
        content ++ ((groupPieces D level blocks).take n).flatten ∧
      backpatched ((groupOps D level content.length blocks).take n) = 0) ∨
    ((replay ((groupOps D level content.length blocks).take n) ⟨content, content.length⟩).bytes =
        content ++ groupBytes D level blocks ∧
      backpatched ((groupOps D level content.length blocks).take n) = 1) := by
  rw [groupOps, List.append_assoc, List.take_append, List.length_map, ← List.map_take,
    replay_append, replay_writes, backpatched_writes]
  by_cases hn : n ≤ (groupPieces D level blocks).length
  · rw [Nat.sub_eq_zero_of_le hn, List.take_zero]
    exact .inl ⟨rfl, rfl⟩
  · rw [List.take_of_length_le (show (groupPieces D level blocks).length ≤ n by omega),
      flatten_groupPieces]
    exact replay_take_patchOps content hne _ _ _

/-- What stands behind the finished groups: nothing, or some pieces of one of the groups. -/
def OpenGroup (D : Deps) (level : Nat) (groups : List (List Bytes)) (rest : Bytes) : Prop :=
  rest = [] ∨ ∃ blocks ∈ groups, ∃ m, rest = ((groupPieces D level blocks).take (m + 1)).flatten

theorem OpenGroup.header {groups : List (List Bytes)} (hgroups : ∀ blocks ∈ groups, blocks ≠ [])
    {rest : Bytes} (h : OpenGroup D level groups rest) :
    rest = [] ∨ ∃ zc tail, rest = begHeader zc 0 ++ tail := by
  apply h.imp_right
  rintro ⟨blocks, hblocks, m, rfl⟩
  exact take_groupPieces D level (hgroups blocks hblocks) m

theorem OpenGroup.stops {groups : List (List Bytes)} (hgroups : ∀ blocks ∈ groups, blocks ≠ [])
    {rest : Bytes} (h : OpenGroup D level groups rest) : Stops rest := by
  rcases h.header hgroups with rfl | hheader
  · exact stops_nil
  · exact .inr hheader

theorem OpenGroup.gzipBase_prefix {groups : List (List Bytes)}
    (hgroups : ∀ blocks ∈ groups, blocks ≠ []) {rest : Bytes} (h : OpenGroup D level groups rest)
    (hne : rest ≠ []) : gzipBase <+: rest := by
  obtain ⟨zc, tail, rfl⟩ := (h.header hgroups).resolve_left hne
  rw [begHeader, memberHeader]
  simp only [List.append_assoc]
  exact List.prefix_append _ _

variable (D level) in
/-- A file cut short: the groups whose headers have
been written over, and pieces of the next one. -/
theorem replay_take_fileOps (content : Bytes) {groups : List (List Bytes)}
    (hgroups : ∀ blocks ∈ groups, blocks ≠ []) (n : Nat) :
    ∃ rest,
      (replay ((fileOps D level content.length groups).take n) ⟨content, content.length⟩).bytes =
        content ++ (fileBytes D level
          (groups.take (backpatched ((fileOps D level content.length groups).take n))) ++
          rest) ∧
      OpenGroup D level groups rest ∧
      (0 < n → groups ≠ [] → backpatched ((fileOps D level content.length groups).take n) = 0 →
        rest ≠ []) := by
  induction groups generalizing content n with
  | nil => exact ⟨[], by simp [fileOps, fileBytes, replay_nil], .inl rfl, fun _ h => absurd rfl h⟩
  | cons blocks groups ih =>
    have hne := hgroups blocks List.mem_cons_self
    rw [fileOps, List.take_append, replay_append]
    by_cases hn : n ≤ (groupOps D level content.length blocks).length
    · rw [Nat.sub_eq_zero_of_le hn, List.take_zero, List.append_nil, replay_nil]
      rcases replay_take_groupOps D level content hne n with ⟨hbytes, hcount⟩ | ⟨hbytes, hcount⟩
      · rw [hbytes, hcount]
        refine ⟨_, rfl, ?_, ?_⟩
        · cases n with
          | zero => exact .inl rfl
          | succ n => exact .inr ⟨blocks, List.mem_cons_self, n, rfl⟩
        · intro hpos _ _ hnil
          obtain ⟨n, rfl⟩ : ∃ m, n = m + 1 := ⟨n - 1, by omega⟩
          obtain ⟨zc, tail, hbeg⟩ := take_groupPieces D level hne n
          have hlen := congrArg List.length (hbeg.symm.trans hnil)
          rw [List.length_append, length_begHeader, begHeaderSize, List.length_nil] at hlen
          omega
      · rw [hbytes, hcount]
        exact ⟨[], by simp [fileBytes], .inl rfl, fun _ _ h => absurd h Nat.one_ne_zero⟩
    · have hlen : content.length + (groupBytes D level blocks).length =
          (content ++ groupBytes D level blocks).length :=
        List.length_append.symm
      rw [List.take_of_length_le (show (groupOps D level content.length blocks).length ≤
        n by omega), replay_groupOps D level content hne, backpatched_groupOps, hlen]
      obtain ⟨rest, hbytes, hrest, -⟩ := ih (content ++ groupBytes D level blocks)
        (fun b hb => hgroups b (List.mem_cons_of_mem _ hb))
          (n - (groupOps D level content.length blocks).length)
      refine ⟨rest, ?_, ?_, fun _ _ h => absurd h (Nat.succ_ne_zero _)⟩
      · rw [hbytes, List.take_succ_cons, fileBytes_cons]
        simp only [List.append_assoc]
      · rcases hrest with hnil | ⟨b, hb, hpieces⟩
        · exact .inl hnil
        · exact .inr ⟨b, List.mem_cons_of_mem _ hb, hpieces⟩

variable (D level) in
theorem replay_fileOps (content : Bytes) {groups : List (List Bytes)}
    (hgroups : ∀ blocks ∈ groups, blocks ≠ []) :
    (replay (fileOps D level content.length groups) ⟨content, content.length⟩).bytes =
      content ++ fileBytes D level groups := by
  induction groups generalizing content with
  | nil => rw [fileOps, replay_nil, fileBytes, List.flatMap_nil, List.append_nil]
  | cons blocks groups ih =>
    rw [fileOps, replay_append, replay_groupOps D level content (hgroups blocks List.mem_cons_self),
      fileBytes_cons,
      ← List.length_append, ih _ fun b hb => hgroups b (List.mem_cons_of_mem _ hb),
        List.append_assoc]

theorem length_le_replay (ops : List SinkOp) (c : Cursor) :
    c.bytes.length ≤ (replay ops c).bytes.length := by
  induction ops generalizing c with
  | nil => exact Nat.le_refl _
  | cons op ops ih =>
    have hstep : c.bytes.length ≤ (op.run c).bytes.length := by
      cases op with
      | writeAll data =>
        simp only [SinkOp.run, overwrite, List.length_append, List.length_take,
          List.length_replicate, List.length_drop]
        omega
      | seek offset => exact Nat.le_refl _
      | streamPosition => exact Nat.le_refl _
    exact Nat.le_trans hstep (ih _)

/-! ### Runs -/

/-- A run of `write` calls on an empty sink that may or may not end in `finish`. -/
def Ran (D : Deps) (config : PgzfConfig) (bufs : List Bytes) (w : PgzfWriter) : Prop :=
  onNew (Sink.atEnd []) config (writeMany D bufs) = .ok () w ∨
    ∃ sink, run D (Sink.atEnd []) config bufs = .ok sink w

variable {config : PgzfConfig} {bufs : List Bytes}

/-- The operations of a run are the first ones of the file of its payload. -/
theorem ran_log (hsize : 1 ≤ config.blockSize) (hallocated : config.blockSize < 2 ^ 63)
    (hbatch : 1 ≤ config.compressionBatchSize) (hcompress : Compresses D config bufs.flatten)
    {w : PgzfWriter} (hran : Ran D config bufs w) :
    w.inner.log <+: .streamPosition :: fileOps D config.compressionLevel 0
      (config.groupsOf bufs.flatten) := by
  rcases hran with hwrites | ⟨sink, hrun⟩
  · have hnew : Accepted D [] config [] (started (Sink.atEnd []) config) :=
      ⟨[], [], [], represents_started [] hallocated, full_nil config, hsize, rfl⟩
    rw [onNew_eq hallocated] at hwrites
    obtain ⟨w', hwrites', groups, pending, tail, hrep, hfull, htail, hpayload⟩ :=
      writeMany_accepted hsize hbatch
        (show Compresses D config
          ([] ++ bufs.flatten ++ []) by rwa [List.nil_append, List.append_nil]) hnew
    obtain ⟨-, rfl⟩ := EStateM.Result.ok.inj (hwrites.symm.trans hwrites')
    have hgroups := hfull.groupsOf hsize htail
    rw [List.nil_append] at hpayload
    rw [hpayload] at hgroups
    rw [hrep.log, hgroups, fileOps_append, List.length_nil, ← List.cons_append]
    exact List.prefix_append _ _
  · obtain ⟨w', hrun', hrep⟩ := run_represents hsize hallocated hbatch hcompress []
    obtain ⟨-, rfl⟩ := EStateM.Result.ok.inj (hrun.symm.trans hrun')
    rw [hrep.log]
    exact List.prefix_rfl

/-- Between any two operations of a writer, once the first header has been written, the content is
opened, and what is read from it is the data of the groups whose headers have been written over. -/
theorem crash_consistent (hlimits : WithinLimits D (2 ^ 30) config bufs.flatten)
    (hcodec : Codec D config bufs.flatten) {w : PgzfWriter} (hran : Ran D config bufs w) {n : Nat}
    (hbegun : ∃ data, SinkOp.writeAll data ∈ w.inner.log.take n) :
    Recovers D (replay (w.inner.log.take n) ⟨[], 0⟩).bytes
      ((config.groupsOf bufs.flatten).take (backpatched (w.inner.log.take n))).flatten.flatten := by
  obtain ⟨data, hdata⟩ := hbegun
  have hne : ∀ blocks ∈ config.groupsOf bufs.flatten, blocks ≠ [] := fun blocks hblocks =>
    (hlimits.fits blocks hblocks).ne_nil
  have hlog := (List.take_prefix n w.inner.log).trans
    (ran_log hlimits.blockSize_pos hlimits.allocated hlimits.batchSize_pos hcodec.compresses hran)
  generalize w.inner.log.take n = log at *
  rcases List.prefix_cons_iff.mp hlog with rfl | ⟨ops, rfl, hops⟩
  · exact absurd hdata List.not_mem_nil
  have hmem : SinkOp.writeAll data ∈ ops := (List.mem_cons.mp hdata).resolve_left (by simp)
  have hpos := List.length_pos_of_mem hmem
  have hgroups : config.groupsOf bufs.flatten ≠ [] := by
    intro hnil
    rw [hnil, fileOps] at hops
    exact absurd (List.prefix_nil.mp hops) (List.ne_nil_of_mem hmem)
  have htake := List.prefix_iff_eq_take.mp hops
  obtain ⟨rest, hbytes, hopen, hbegun⟩ :=
    replay_take_fileOps D config.compressionLevel [] hne ops.length
  rw [List.length_nil, ← htake, List.nil_append] at hbytes
  rw [List.length_nil, ← htake] at hbegun
  have hlen : (replay ops ⟨[], 0⟩).bytes.length < 2 ^ 64 := by
    obtain ⟨later, hlater⟩ := hops
    have hle := length_le_replay later (replay ops ⟨[], 0⟩)
    have hall := replay_fileOps D config.compressionLevel [] hne
    rw [List.length_nil, List.nil_append] at hall
    rw [← replay_append, hlater, hall] at hle
    exact Nat.lt_of_le_of_lt hle hlimits.addressable
  have hsub := fun blocks (h : blocks ∈ (config.groupsOf bufs.flatten).take (backpatched ops)) =>
    List.mem_of_mem_take h
  have hbase : gzipBase <+: fileBytes D config.compressionLevel
      ((config.groupsOf bufs.flatten).take (backpatched ops)) ++ rest := by
    by_cases hzero : backpatched ops = 0
    · rw [hzero]
      exact hopen.gzipBase_prefix hne (hbegun hpos hgroups hzero)
    · refine gzipBase_prefix_fileBytes _ ?_ (fun blocks h => hne blocks (hsub blocks h)) rest
      rw [ne_eq, List.take_eq_nil_iff, not_or]
      exact ⟨hzero, hgroups⟩
  rw [hbytes] at hlen
  have hrecovers := recovers_fileBytes (fun blocks h => hlimits.fits blocks (hsub blocks h))
    (fun blocks h => hcodec.inflates blocks (hsub blocks h)) hbase (hopen.stops hne) hlen
  rw [← hbytes] at hrecovers
  exact hrecovers

theorem crash_consistent_sample :
    ∃ w, Ran Stored.deps Stored.sampleConfig Stored.sampleBufs w ∧
      Recovers Stored.deps (replay (w.inner.log.take 20) ⟨[], 0⟩).bytes [97, 98, 99, 100] := by
  obtain ⟨w, hrun, hrep⟩ :=
    run_represents (by decide) (by decide) (by decide) Stored.sample_codec.compresses []
  have hbegun : ∃ data, SinkOp.writeAll data ∈ w.inner.log.take 20 := by
    rw [hrep.log]
    exact ⟨_, List.mem_cons_of_mem _ List.mem_cons_self⟩
  have hdone : backpatched (w.inner.log.take 20) = 1 := by
    rw [hrep.log]
    decide +kernel
  have h := crash_consistent Stored.sample_withinLimits Stored.sample_codec (.inr ⟨_, hrun⟩) hbegun
  rw [hdone] at h
  exact ⟨w, .inr ⟨_, hrun⟩, h⟩

end Pgzf
