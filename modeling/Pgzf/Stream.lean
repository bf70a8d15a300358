import Pgzf.AnyFile

/-!
# What is read from any file

`stream` is the bytes of batch after batch, up to the first block without bytes or the first batch
without blocks. Reading a file to the end gives its stream, or fails as it does, whatever the sizes
of the buffers.
-/

namespace Pgzf

open PgzfReader PgzfIndex

variable {D : Deps} {file : Bytes} {index : PgzfIndex}

/-- The bytes of a queue, and what comes behind it;
the first block without bytes is taken for the end. -/
def serve : List Bytes → Except Fault Bytes → Except Fault Bytes
  | [], behind => behind
  | data :: rest, behind => if data = [] then .ok [] else (serve rest behind).map (data ++ ·)

def batchEnd (index : PgzfIndex) (start : Nat) : Nat :=
  min index.blockCount (start + defaultReadahead)

theorem lt_batchEnd {start : Nat} (h : start < index.blockCount) :
    start < batchEnd index start := by
  rw [batchEnd, defaultReadahead]
  omega

variable (D file index)

def batchFrom (start : Nat) : Except Fault (List Bytes) :=
  batchAt D file ((index.compressedOffset start).getD 0) (batchEnd index start - start)

/-- The bytes from block `start` on, read batch by batch. -/
def stream (start : Nat) : Except Fault Bytes :=
  if _h : start < index.blockCount then
    match batchFrom D file index start with
    | .error fault => .error fault
    | .ok [] => .ok []
    | .ok (data :: datas) => serve (data :: datas) (stream (batchEnd index start))
  else
    .ok []
termination_by index.blockCount - start
decreasing_by
  have := lt_batchEnd _h
  omega

variable {D file index}

theorem stream_of_error {start : Nat} {fault : Fault} (hlt : start < index.blockCount)
    (hbatch : batchFrom D file index start = .error fault) :
    stream D file index start = .error fault := by
  rw [stream, dif_pos hlt, hbatch]

theorem stream_of_nil {start : Nat} (hlt : start < index.blockCount)
    (hbatch : batchFrom D file index start = .ok []) :
    stream D file index start = .ok [] := by
  rw [stream, dif_pos hlt, hbatch]

theorem stream_of_ne_nil {start : Nat} {datas : List Bytes} (hlt : start < index.blockCount)
    (hbatch : batchFrom D file index start = .ok datas) (hne : datas ≠ []) :
    stream D file index start = serve datas (stream D file index (batchEnd index start)) := by
  obtain ⟨data, rest, rfl⟩ := List.exists_cons_of_ne_nil hne
  rw [stream, dif_pos hlt, hbatch]

theorem stream_of_le {start : Nat} (hle : index.blockCount ≤ start) :
    stream D file index start = .ok [] := by
  rw [stream, dif_neg (Nat.not_lt.mpr hle)]

theorem batch_induction {motive : Nat → Prop} (index : PgzfIndex)
    (behind : ∀ start, index.blockCount ≤ start → motive start)
    (batch : ∀ start, start < index.blockCount → motive (batchEnd index start) → motive start)
    (start : Nat) :
    motive start := by
  induction hrest : index.blockCount - start using Nat.strong_induction_on generalizing start with
  | _ rest ih =>
    subst hrest
    by_cases hlt : start < index.blockCount
    · have hnext := lt_batchEnd hlt
      apply batch start hlt
      exact ih (index.blockCount - batchEnd index start) (by omega) _ rfl
    · exact behind start (Nat.not_lt.mp hlt)

/-! ### Runs -/

/-- Read with at least `count` buffers, the reader ends with the given result. -/
def Runs (r : PgzfReader D) (count : Nat) (result : Except Fault Bytes) : Prop :=
  ∀ sizes : List Nat, (∀ n ∈ sizes, 0 < n) → count ≤ sizes.length →
    Program.outcome (readToEnd sizes r) = result.map some

theorem eq_error_of_map_some {result : Except Fault Bytes} {fault : Fault}
    (h : result.map some = .error fault) :
    result = .error fault := by
  cases result with
  | error _ => rw [Except.error.inj h]
  | ok _ => exact absurd h (by simp [Except.map])

theorem eq_ok_of_map_some {result : Except Fault Bytes} {out : Option Bytes}
    (h : result.map some = .ok out) :
    ∃ bytes, result = .ok bytes ∧ out = some bytes := by
  cases result with
  | error _ => exact absurd h (by simp [Except.map])
  | ok bytes => exact ⟨bytes, rfl, (Except.ok.inj h).symm⟩

theorem Runs.mono {r : PgzfReader D} {count count' : Nat} {result : Except Fault Bytes}
    (h : Runs r count result) (hle : count ≤ count') : Runs r count' result :=
  fun sizes hsizes hlen => h sizes hsizes (Nat.le_trans hle hlen)

theorem Runs.of_read_eq {r r' : PgzfReader D} {count : Nat} {result : Except Fault Bytes}
    (hread : ∀ n, 0 < n → PgzfReader.read n r = PgzfReader.read n r')
    (h : Runs r' (count + 1) result) :
    Runs r (count + 1) result := by
  intro sizes hsizes hlen
  cases sizes with
  | nil => exact absurd hlen (by simp)
  | cons n sizes =>
    rw [← h (n :: sizes) hsizes hlen]
    simp only [readToEnd]
    rw [Program.bind_apply, Program.bind_apply, hread n (hsizes n List.mem_cons_self)]

theorem Runs.of_read_error {r : PgzfReader D} {fault : Fault}
    (hread : ∀ n, 0 < n → ∃ r', PgzfReader.read n r = .error fault r') :
    Runs r 1 (.error fault) := by
  intro sizes hsizes hlen
  cases sizes with
  | nil => exact absurd hlen (by simp)
  | cons n sizes =>
    obtain ⟨r', hfail⟩ := hread n (hsizes n List.mem_cons_self)
    rw [readToEnd, Program.bind_error hfail]
    rfl

theorem Runs.of_read_nil {r : PgzfReader D}
    (hread : ∀ n, 0 < n → ∃ r', PgzfReader.read n r = .ok [] r') :
    Runs r 1 (.ok []) := by
  intro sizes hsizes hlen
  cases sizes with
  | nil => exact absurd hlen (by simp)
  | cons n sizes =>
    obtain ⟨r', hend⟩ := hread n (hsizes n List.mem_cons_self)
    rw [readToEnd, Program.bind_ok hend]
    rfl

theorem Runs.of_read {r : PgzfReader D} {count : Nat} {result : Except Fault Bytes}
    (hread : ∀ n, 0 < n → ∃ out r' rest, PgzfReader.read n r = .ok out r' ∧ out ≠ [] ∧
      Runs r' count rest ∧ result = rest.map (out ++ ·)) :
    Runs r (count + 1) result := by
  intro sizes hsizes hlen
  cases sizes with
  | nil => exact absurd hlen (by simp)
  | cons n sizes =>
    obtain ⟨out, r', rest, hout, hne, hrest, rfl⟩ := hread n (hsizes n List.mem_cons_self)
    have hlater :=
      hrest sizes (fun m hm => hsizes m (List.mem_cons_of_mem _ hm)) (by simpa using hlen)
    have hnotEmpty : out.isEmpty = false := by rwa [List.isEmpty_eq_false_iff]
    rw [readToEnd, Program.bind_ok hout]
    simp only [hnotEmpty, Bool.false_eq_true, if_false]
    rw [Program.bind_apply]
    cases hrun : readToEnd sizes r' with
    | error fault last =>
      rw [hrun] at hlater
      obtain rfl := eq_error_of_map_some hlater.symm
      rfl
    | ok answer last =>
      rw [hrun] at hlater
      obtain ⟨bytes, rfl, rfl⟩ := eq_ok_of_map_some hlater.symm
      rfl

/-! ### The reader between two reads -/

/-- A reader with the default readahead that has only gone forward: `left` of its current block, the
queue and the next block are still to be served. -/
structure Ready (file : Bytes) (index : PgzfIndex) (left : Bytes) (queue : List Bytes) (next : Nat)
    (r : PgzfReader D) : Prop where
  inner : ∃ p, r.inner = ⟨file, p, []⟩
  isPgzf : r.isPgzf = true
  index_eq : r.index = some index
  pendingSeek : r.pendingSeek = none
  unlimited : r.readaheadMemoryLimit = none
  readaheadSize : r.readaheadSize = defaultReadahead
  eof : r.eof = false
  left_eq : r.currentBlock.drop r.currentPos = left
  queue_eq : r.readahead = queue
  next_eq : r.nextBlockIndex = next
  ahead : ∀ i, r.blockCache.lookup i ≠ none → i < next

variable {left : Bytes} {queue : List Bytes} {next : Nat} {r : PgzfReader D}

theorem drop_min_length (data : Bytes) (n : Nat) : data.drop (min data.length n) = data.drop n := by
  rcases Nat.le_total data.length n with hle | hle
  · rw [Nat.min_eq_left hle, List.drop_length, List.drop_eq_nil_of_le hle]
  · rw [Nat.min_eq_right hle]

theorem Ready.read_left (h : Ready file index left queue next r) (hne : left ≠ []) (n : Nat)
    (hn : 0 < n) :
    ∃ r', PgzfReader.read n r = .ok (left.take n) r' ∧
      Ready file index (left.drop n) queue next r' := by
  have hleft : r.currentPos < r.currentBlock.length := by
    rw [← h.left_eq] at hne
    have := List.length_pos_iff.mpr hne
    rw [List.length_drop] at this
    omega
  rw [PgzfReader.read, if_neg (Nat.ne_of_gt hn),
    Program.bind_ok (executePendingSeek_none h.pendingSeek),
    Program.bind_ok (Program.get_apply _), if_pos hleft]
  simp only [h.left_eq]
  rw [Program.bind_ok (Program.set_apply _ _), Program.pure_apply, take_min_length]
  refine ⟨_, rfl, h.inner, h.isPgzf, h.index_eq, h.pendingSeek, h.unlimited, h.readaheadSize,
    h.eof, ?_, h.queue_eq, h.next_eq, h.ahead⟩
  rw [← List.drop_drop, h.left_eq, drop_min_length]

theorem Ready.read_drained (h : Ready file index [] queue next r) {n : Nat} (hn : 0 < n) :
    PgzfReader.read n r = readNextBlock n r := by
  have hdone : ¬ r.currentPos < r.currentBlock.length := by
    have := congrArg List.length h.left_eq
    rw [List.length_drop, List.length_nil] at this
    omega
  rw [PgzfReader.read, if_neg (Nat.ne_of_gt hn),
    Program.bind_ok (executePendingSeek_none h.pendingSeek),
    Program.bind_ok (Program.get_apply _), if_neg hdone]
  simp only [h.eof, Bool.false_eq_true, if_false]

theorem Ready.read_queue {data : Bytes} {rest : List Bytes}
    (h : Ready file index [] (data :: rest) next r) {n : Nat} (hn : 0 < n) :
    ∃ r', PgzfReader.read n r = .ok (data.take n) r' ∧
      Ready file index (data.drop n) rest next r' := by
  rw [h.read_drained hn, readNextBlock, Program.bind_ok (Program.get_apply _), if_pos h.isPgzf,
    Program.bind_ok (serveNext_cons h.queue_eq n)]
  simp only [Program.pure_apply, take_min_length]
  refine ⟨_, rfl, h.inner, h.isPgzf, h.index_eq, h.pendingSeek, h.unlimited, h.readaheadSize, h.eof,
    drop_min_length data n, rfl, h.next_eq, h.ahead⟩

/-- A refill takes the batch at the listed offset of the next block, or fails as it does. -/
theorem Ready.refill (h : Ready file index [] [] next r) (hlt : next < index.blockCount)
    (hfit : index.blockCount + defaultReadahead < 2 ^ 64) :
    match batchFrom D file index next with
    | .ok datas => ∃ r', fillReadahead r = .ok () r' ∧ r'.readahead = datas ∧
        (datas ≠ [] → Ready file index [] datas (batchEnd index next) r')
    | .error fault => ∃ r', fillReadahead r = .error fault r' := by
  obtain ⟨p, hin⟩ := h.inner
  have hmore : ¬ r.nextBlockIndex ≥ index.blockCount := by
    rw [h.next_eq]
    omega
  have hfill : fillReadahead r = fetchBatch index next (batchEnd index next) r := by
    rw [fillReadahead, Program.bind_ok (Program.get_apply _)]
    simp only [h.isPgzf, Bool.not_true, Bool.false_eq_true, if_false, h.queue_eq, List.isEmpty_nil,
      h.unlimited, Option.any_none, h.index_eq, hmore]
    rw [h.next_eq, h.readaheadSize, Program.bind_ok (addU64_of_lt (by omega) _), batchEnd]
  have hfetch := fetchBatch_ahead index hin (lt_batchEnd hlt) h.queue_eq h.ahead
  rw [hfill, batchFrom]
  cases hbatch : batchAt D file ((index.compressedOffset next).getD 0)
      (batchEnd index next - next) with
  | error fault =>
    rw [hbatch] at hfetch
    exact hfetch
  | ok datas =>
    rw [hbatch] at hfetch
    obtain ⟨q, cache, eof, hrun, heof, hcached⟩ := hfetch
    exact ⟨_, hrun, rfl, fun hne => ⟨⟨q, rfl⟩, h.isPgzf, h.index_eq, h.pendingSeek, h.unlimited,
      h.readaheadSize, (heof hne).trans h.eof, h.left_eq, rfl, rfl, hcached⟩⟩

theorem Ready.refill_end (h : Ready file index [] [] next r) (hle : index.blockCount ≤ next) :
    fillReadahead r = .ok () { r with eof := true } := by
  have hmore : r.nextBlockIndex ≥ index.blockCount := by
    rw [h.next_eq]
    exact hle
  rw [fillReadahead, Program.bind_ok (Program.get_apply _)]
  simp only [h.isPgzf, Bool.not_true, Bool.false_eq_true, if_false, h.queue_eq, List.isEmpty_nil,
    h.unlimited, Option.any_none, h.index_eq, hmore, if_true, Program.set_apply]

/-! ### Reading to the end -/

/-- What is left of a block is served in front of what comes behind it. -/
theorem runs_left {count : Nat} {behind : Except Fault Bytes}
    (hqueue : ∀ r : PgzfReader D, Ready file index [] queue next r → Runs r count behind)
    {left : Bytes} {r : PgzfReader D} (h : Ready file index left queue next r) :
    Runs r (count + left.length) (behind.map (left ++ ·)) := by
  induction hlen : left.length using Nat.strong_induction_on generalizing left r with
  | _ len ih =>
    subst hlen
    by_cases hnil : left = []
    · subst hnil
      have hsame : behind.map (([] : Bytes) ++ ·) = behind := by cases behind <;> rfl
      rw [hsame]
      exact hqueue r h
    · have hpos := List.length_pos_iff.mpr hnil
      suffices hruns : Runs r (count + (left.length - 1) + 1) (behind.map (left ++ ·))
        from hruns.mono (by omega)
      apply Runs.of_read
      intro n hn
      obtain ⟨r', hread, hready⟩ := h.read_left hnil n hn
      have hdrop : (left.drop n).length < left.length := by
        rw [List.length_drop]
        omega
      refine ⟨_, r', _, hread, ?_, (ih _ hdrop hready rfl).mono (by omega), ?_⟩
      · exact List.ne_nil_of_length_pos (by rw [List.length_take]; omega)
      · cases behind with
        | error fault => rfl
        | ok bytes => simp only [Except.map, ← List.append_assoc, List.take_append_drop]

theorem runs_queue {behind : Except Fault Bytes} {count : Nat}
    (hbehind : ∀ r : PgzfReader D, Ready file index [] [] next r → Runs r count behind)
    (queue : List Bytes) :
    ∃ count, ∀ r : PgzfReader D, Ready file index [] queue next r →
      Runs r (count + 1) (serve queue behind) := by
  induction queue with
  | nil => exact ⟨count, fun r h => (hbehind r h).mono (Nat.le_succ _)⟩
  | cons data rest ih =>
    obtain ⟨count, hrest⟩ := ih
    refine ⟨count + 1 + data.length, ?_⟩
    intro r h
    rw [serve]
    by_cases hnil : data = []
    · subst hnil
      refine (Runs.of_read_nil fun n hn => ?_).mono (by omega)
      obtain ⟨r', hread, -⟩ := h.read_queue hn
      exact ⟨r', by rw [hread, List.take_nil]⟩
    · rw [if_neg hnil]
      apply Runs.of_read
      intro n hn
      obtain ⟨r', hread, hready⟩ := h.read_queue hn
      have hpos := List.length_pos_iff.mpr hnil
      refine ⟨_, r', _, hread, ?_, (runs_left hrest hready).mono (by rw [List.length_drop]; omega),
        ?_⟩
      · exact List.ne_nil_of_length_pos (by rw [List.length_take]; omega)
      · cases serve rest behind with
        | error fault => rfl
        | ok bytes => simp only [Except.map, ← List.append_assoc, List.take_append_drop]

theorem Ready.read_failed (h : Ready file index [] [] next r) {r' : PgzfReader D} {fault : Fault}
    (hfill : fillReadahead r = .error fault r') {n : Nat} (hn : 0 < n) :
    PgzfReader.read n r = .error fault r' := by
  rw [h.read_drained hn, readNextBlock, Program.bind_ok (Program.get_apply _), if_pos h.isPgzf,
    Program.bind_ok (serveNext_nil h.queue_eq n)]
  exact Program.bind_error hfill

theorem Ready.read_ended (h : Ready file index [] [] next r) {r' : PgzfReader D}
    (hfill : fillReadahead r = .ok () r') (hqueue : r'.readahead = []) {n : Nat} (hn : 0 < n) :
    ∃ r'', PgzfReader.read n r = .ok [] r'' := by
  rw [h.read_drained hn, readNextBlock, Program.bind_ok (Program.get_apply _), if_pos h.isPgzf,
    Program.bind_ok (serveNext_nil h.queue_eq n)]
  simp only
  rw [Program.bind_ok hfill, Program.bind_ok (serveNext_nil hqueue n)]
  exact ⟨_, rfl⟩

theorem Ready.read_refilled (h : Ready file index [] [] next r) {r' : PgzfReader D}
    (hfill : fillReadahead r = .ok () r') {stop : Nat} (h' : Ready file index [] queue stop r')
    (hne : queue ≠ []) {n : Nat} (hn : 0 < n) :
    PgzfReader.read n r = PgzfReader.read n r' := by
  obtain ⟨data, rest, rfl⟩ := List.exists_cons_of_ne_nil hne
  rw [h.read_drained hn, h'.read_drained hn, readNextBlock, Program.bind_ok (Program.get_apply _),
    if_pos h.isPgzf,
    Program.bind_ok (serveNext_nil h.queue_eq n), Program.bind_ok (Program.get_apply _),
      if_pos h'.isPgzf]
  simp only
  rw [Program.bind_ok hfill, Program.bind_ok (serveNext_cons h'.queue_eq n),
    Program.bind_ok (serveNext_cons h'.queue_eq n)]

variable (D file) in
/-- Reading on from block `start` gives the stream from there. -/
theorem runs_stream (hfit : index.blockCount + defaultReadahead < 2 ^ 64) (start : Nat) :
    ∃ count, ∀ r : PgzfReader D, Ready file index [] [] start r →
      Runs r (count + 1) (stream D file index start) := by
  induction start using batch_induction index with
  | behind start hle =>
    rw [stream_of_le hle]
    refine ⟨0, fun r h => Runs.of_read_nil ?_⟩
    intro n hn
    exact h.read_ended (h.refill_end hle) h.queue_eq hn
  | batch start hlt ih =>
    cases hbatch : batchFrom D file index start with
    | error fault =>
      rw [stream_of_error hlt hbatch]
      refine ⟨0, fun r h => Runs.of_read_error ?_⟩
      intro n hn
      have hrefill := h.refill hlt hfit
      rw [hbatch] at hrefill
      obtain ⟨r', hfill⟩ := hrefill
      exact ⟨r', h.read_failed hfill hn⟩
    | ok datas =>
      by_cases hnil : datas = []
      · subst hnil
        rw [stream_of_nil hlt hbatch]
        refine ⟨0, fun r h => Runs.of_read_nil ?_⟩
        intro n hn
        have hrefill := h.refill hlt hfit
        rw [hbatch] at hrefill
        obtain ⟨r', hfill, hqueue, -⟩ := hrefill
        exact h.read_ended hfill hqueue hn
      · obtain ⟨count, hbehind⟩ := ih
        obtain ⟨count', hqueue⟩ := runs_queue hbehind datas
        rw [stream_of_ne_nil hlt hbatch hnil]
        refine ⟨count', fun r h => ?_⟩
        have hrefill := h.refill hlt hfit
        rw [hbatch] at hrefill
        obtain ⟨r', hfill, -, hready⟩ := hrefill
        apply Runs.of_read_eq _ (hqueue r' (hready hnil))
        intro n hn
        exact h.read_refilled hfill (hready hnil) hnil hn

theorem ready_fresh (file : Bytes) (index : PgzfIndex) :
    Ready file index [] [] 0 (fresh D file index) := by
  refine ⟨⟨0, rfl⟩, rfl, rfl, rfl, rfl, rfl, rfl, rfl, rfl, rfl, fun i hi => absurd ?_ hi⟩
  exact lookup_configured (fresh D file index) defaultReadahead defaultBlockCacheCapacity none i

/-! ### Opening -/

def Source.Over (file : Bytes) (s : Source) : Prop := s.bytes = file ∧ s.faults = []

theorem keeps_attempt {σ α : Type} {P : σ → Prop} {m : Prog σ α} (h : Program.Keeps P m) :
    Program.Keeps P (Prog.attempt m) := by
  intro s hs
  have hend := h s hs
  rw [Prog.attempt]
  cases hrun : m s with
  | ok a s' =>
    rw [hrun] at hend
    exact hend
  | error fault s' =>
    rw [hrun] at hend
    cases fault <;> exact hend

theorem keeps_ofExcept {σ α : Type} (P : σ → Prop) (result : Except PgzfError α) :
    Program.Keeps P (Prog.ofExcept result : Prog σ α) := by
  cases result <;> exact fun _ hs => hs

theorem keeps_seekStart (file : Bytes) (offset : Nat) :
    Program.Keeps (Source.Over file) (Source.seekStart offset) := by
  rintro ⟨bytes, p, faults⟩ ⟨rfl, rfl⟩
  exact ⟨rfl, rfl⟩

theorem keeps_readExact (file : Bytes) (n : Nat) :
    Program.Keeps (Source.Over file) (Source.readExact n) := by
  rintro ⟨bytes, p, faults⟩ ⟨rfl, rfl⟩
  simp only
  by_cases hroom : n ≤ bytes.length - p
  · rw [Source.readExact_ok hroom]
    exact ⟨rfl, rfl⟩
  · rw [Source.readExact_eof (Nat.not_le.mp hroom)]
    exact ⟨rfl, rfl⟩

theorem keeps_addU64 {σ : Type} (P : σ → Prop) (a b : Nat) :
    Program.Keeps P (addU64 a b : Prog σ Nat) := by
  rw [addU64]
  split
  · exact Program.keeps_pure P _
  · exact Program.keeps_throw P _

theorem keeps_scanIdx (file : Bytes) (idxStart : Nat) (acc : Scan) :
    Program.Keeps (Source.Over file) (scanIdx idxStart acc) := by
  refine (keeps_seekStart file _).bind fun _ => (keeps_readExact file _).bind fun idxFixed =>
    (keeps_ofExcept _ _).bind fun header => ?_
  simp only
  split
  · exact Program.keeps_throw _ _
  · split
    · exact Program.keeps_throw _ _
    · exact (keeps_readExact file _).bind fun _ => (keeps_addU64 _ _ _).bind fun _ =>
          (keeps_seekStart file _).bind fun _ =>
        Program.keeps_pure _ _

theorem keeps_scanGroup (file : Bytes) (groupStart : Nat) (begBuf : Bytes) (acc : Scan) :
    Program.Keeps (Source.Over file) (scanGroup groupStart begBuf acc) := by
  refine (keeps_ofExcept _ _).bind fun header => ?_
  simp only
  split
  · exact Program.keeps_throw _ _
  · split
    · exact Program.keeps_pure _ _
    · exact (keeps_addU64 _ _ _).bind fun _ => (keeps_scanIdx file _ _).bind fun _ =>
        Program.keeps_pure _ _

theorem keeps_buildLoop (file : Bytes) (fuel : Nat) (acc : Scan) :
    Program.Keeps (Source.Over file) (buildLoop fuel acc) := by
  induction fuel generalizing acc with
  | zero => exact Program.keeps_throw _ _
  | succ fuel ih =>
    refine (keeps_attempt ?_).bind fun position => ?_
    · rintro ⟨bytes, p, faults⟩ ⟨rfl, rfl⟩
      exact ⟨rfl, rfl⟩
    · split
      · exact Program.keeps_pure _ _
      · refine (keeps_attempt (keeps_readExact file _)).bind fun header => ?_
        split
        · split
          · exact Program.keeps_pure _ _
          · exact Program.keeps_throw _ _
        · exact Program.keeps_throw _ _
        · refine (keeps_scanGroup file _ _ _).bind fun next => ?_
          split
          · exact Program.keeps_pure _ _
          · exact ih _

theorem keeps_build (file : Bytes) : Program.Keeps (Source.Over file) build :=
  (keeps_seekStart file 0).bind fun _ => (Program.keeps_get _).bind fun _ =>
      (keeps_buildLoop file _ _).bind fun _ =>
    Program.keeps_pure _ _

theorem build_of_outcome (h : Program.outcome (build ⟨file, 0, []⟩) = .ok index) (q : Nat) :
    ∃ q', build ⟨file, q, []⟩ = .ok index ⟨file, q', []⟩ := by
  obtain ⟨⟨bytes, p, faults⟩, hbuild⟩ := Program.exists_of_outcome h
  obtain ⟨rfl, rfl⟩ :=
    (keeps_build file).of_ok (show Source.Over file ⟨file, 0, []⟩ from ⟨rfl, rfl⟩) hbuild
  exact ⟨p, hbuild⟩

/-- A reader for a PGZF file is fresh: it stands at the
front of the file, with the index that was built. -/
theorem eq_fresh_of_new {reader : PgzfReader D} {q : Nat} {s' : Source}
    (hnew : new D ⟨file, q, []⟩ = .ok reader s') (hpgzf : reader.isPgzf = true) :
    ∃ index, reader = fresh D file index := by
  rw [new, Program.bind_ok (Source.seekStart_apply _ _ _)] at hnew
  obtain ⟨header, mid, hread, hnew⟩ := Program.of_bind_ok hnew
  have hmid :=
    (keeps_readExact file _).of_ok (show Source.Over file ⟨file, 0, []⟩ from ⟨rfl, rfl⟩) hread
  obtain ⟨⟨flg, xfl⟩, mid', hvalid, hnew⟩ := Program.of_bind_ok hnew
  have hmid' := (keeps_ofExcept _ _).of_ok hmid hvalid
  simp only at hnew
  by_cases hmarked : isPgzfMember flg xfl = true
  · simp only [hmarked, if_true] at hnew
    obtain ⟨⟨⟩, mid₁, hseek, hnew⟩ := Program.of_bind_ok hnew
    have hmid₁ := (keeps_seekStart file 0).of_ok hmid' hseek
    obtain ⟨index, mid₂, hbuild, hnew⟩ := Program.of_bind_ok hnew
    obtain ⟨hbytes, hfaults⟩ := (keeps_build file).of_ok hmid₁ hbuild
    rw [Program.bind_ok (Program.pure_apply _ _)] at hnew
    obtain ⟨bytes, p, faults⟩ := mid₂
    obtain rfl : bytes = file := hbytes
    obtain rfl : faults = [] := hfaults
    rw [Program.bind_ok (Source.seekStart_apply _ _ _), Program.bind_ok (Program.get_apply _),
      Program.pure_apply] at hnew
    exact ⟨index, (EStateM.Result.ok.inj hnew).1.symm⟩
  · simp only [hmarked, if_false, Bool.false_eq_true] at hnew
    rw [Program.bind_ok (Program.pure_apply _ _)] at hnew
    obtain ⟨⟨⟩, mid₁, -, hnew⟩ := Program.of_bind_ok hnew
    rw [Program.bind_ok (Program.get_apply _), Program.pure_apply] at hnew
    rw [← (EStateM.Result.ok.inj hnew).1] at hpgzf
    exact absurd hpgzf (by simp)

end Pgzf
