import Pgzf.Representable
import Pgzf.Steps
import Pgzf.Stream
import Mathlib.Logic.Relation

/-!
# The states of a reader

A session changes the settings and makes calls, in any order, and goes on behind calls that fail.
Whatever it does to the position, on a file that its index describes every state keeps the file, the
index and a cache with nothing in it but blocks of the file. That is `OnFile`; what a call does from
such a state does not depend on how the reader came there.
-/

namespace Pgzf

open PgzfReader PgzfIndex Program BlockCursor

variable {D : Deps} {file : Bytes} {index : PgzfIndex} {blocks : List Bytes} {r r' : PgzfReader D}

inductive SettingStep : PgzfReader D → PgzfReader D → Prop
  | withReadahead {r : PgzfReader D} {size : Nat} : size < 2 ^ 64 →
    SettingStep r (r.withReadahead size)
  | withReadaheadMemoryLimit (r : PgzfReader D) (maxBytes : Nat) :
    SettingStep r (r.withReadaheadMemoryLimit maxBytes)
  | withBlockCache (r : PgzfReader D) (capacity : Nat) : SettingStep r (r.withBlockCache capacity)
  | withBlockCacheMemoryLimit (r : PgzfReader D) (capacity maxBytes : Nat) :
    SettingStep r (r.withBlockCacheMemoryLimit capacity maxBytes)

/-- A step of a session: a change of the settings, or
a call that is answered with a value or an error. -/
inductive ReaderStep : PgzfReader D → PgzfReader D → Prop
  | setting {r r' : PgzfReader D} : SettingStep r r' → ReaderStep r r'
  | call {r r' : PgzfReader D} (call : BlockCall) {answer : Except PgzfError Unit} :
    Prog.attempt call.run r = .ok answer r' → ReaderStep r r'

/-- The states a session comes to, on the reader `new` makes of the source. -/
def Reachable (s : Source) (r : PgzfReader D) : Prop :=
  ∃ reader s', new D s = .ok reader s' ∧ Relation.ReflTransGen ReaderStep reader r

structure Serves (blocks : List Bytes) (r : PgzfReader D) : Prop where
  pos_le : r.currentPos ≤ r.currentBlock.length
  current : r.currentBlock = [] ∨ r.currentBlock ∈ blocks
  queued : ∀ data ∈ r.readahead, data ∈ blocks

/-- What no call changes, and what it keeps true of the cache and the queue. -/
structure OnFile (file : Bytes) (index : PgzfIndex) (blocks : List Bytes) (r : PgzfReader D) :
    Prop where
  inner : ∃ p, r.inner = ⟨file, p, []⟩
  isPgzf : r.isPgzf = true
  index_eq : r.index = some index
  size_pos : 0 < r.readaheadSize
  size_lt : r.readaheadSize < 2 ^ 64
  sound : r.blockCache.Sound blocks
  serves : Serves blocks r

theorem Serves.nil (hcurrent : r.currentBlock = []) (hpos : r.currentPos = 0)
    (hqueue : r.readahead = []) :
    Serves blocks r := by
  refine ⟨hpos ▸ Nat.zero_le _, .inl hcurrent, ?_⟩
  rw [hqueue]
  exact fun data hdata => absurd hdata List.not_mem_nil

theorem Serves.congr (h : Serves blocks r) (hcurrent : r'.currentBlock = r.currentBlock)
    (hpos : r'.currentPos = r.currentPos) (hqueue : r'.readahead = r.readahead) :
    Serves blocks r' :=
  ⟨by rw [hcurrent, hpos]; exact h.pos_le, hcurrent ▸ h.current, hqueue ▸ h.queued⟩

theorem OnFile.moved (h : OnFile file index blocks r) (hinner : ∃ p, r'.inner = ⟨file, p, []⟩)
    (hpgzf : r'.isPgzf = r.isPgzf) (hindex : r'.index = r.index)
    (hsize : r'.readaheadSize = r.readaheadSize) (hcache : r'.blockCache = r.blockCache)
    (hserves : Serves blocks r') : OnFile file index blocks r' :=
  ⟨hinner, hpgzf.trans h.isPgzf, hindex.trans h.index_eq, hsize ▸ h.size_pos, hsize ▸ h.size_lt,
    hcache ▸ h.sound, hserves⟩

/-! ### Refills -/

/-- The reader behind the fetch of a batch, the source at `q`. -/
def PgzfReader.refilled (r : PgzfReader D) (file : Bytes) (blocks : List Bytes) (q : Nat) :
    PgzfReader D :=
  { r with
    inner := ⟨file, q, []⟩
    readahead :=
      (blocks.drop r.nextBlockIndex).take (batchStop blocks r r.nextBlockIndex - r.nextBlockIndex)
    nextBlockIndex := refillEnd r.blockCache r.nextBlockIndex (batchStop blocks r r.nextBlockIndex)
    blockCache :=
      refillCache blocks r.blockCache r.nextBlockIndex (batchStop blocks r r.nextBlockIndex) }

theorem OnFile.refilled (h : OnFile file index blocks r) (q : Nat) :
    OnFile file index blocks (r.refilled file blocks q) := by
  refine ⟨⟨q, rfl⟩, h.isPgzf, h.index_eq, h.size_pos, h.size_lt,
    sound_refillCache h.sound (Nat.min_le_left _ _), ?_⟩
  exact ⟨h.serves.pos_le, h.serves.current, fun data hdata =>
    List.mem_of_mem_drop (List.mem_of_mem_take hdata)⟩

theorem OnFile.readahead_refilled (h : OnFile file index blocks r)
    (hlt : r.nextBlockIndex < blocks.length) (q : Nat) :
    (r.refilled file blocks q).readahead = blocks[r.nextBlockIndex] ::
      (blocks.drop (r.nextBlockIndex + 1)).take (batchStop blocks r r.nextBlockIndex -
        (r.nextBlockIndex + 1)) := by
  have hstop : r.nextBlockIndex < batchStop blocks r r.nextBlockIndex := by
    have := h.size_pos
    rw [batchStop]
    omega
  rw [PgzfReader.refilled, List.drop_eq_getElem_cons hlt, show batchStop blocks r r.nextBlockIndex -
    r.nextBlockIndex =
    (batchStop blocks r r.nextBlockIndex - (r.nextBlockIndex + 1)) + 1 by omega,
      List.take_succ_cons]

theorem OnFile.fillReadahead_refill (hd : Describes D file index blocks)
    (h : OnFile file index blocks r) (hneeds : NeedsRefill index r)
    (hfit : r.nextBlockIndex + r.readaheadSize < 2 ^ 64) :
    ∃ q, fillReadahead r = .ok () (r.refilled file blocks q) := by
  obtain ⟨p, hin⟩ := h.inner
  obtain ⟨hempty, hlimit, hlt⟩ := hneeds
  rw [hd.blockCount] at hlt
  obtain ⟨q, hfill, -⟩ :=
    fillReadahead_eq hd hin h.isPgzf h.index_eq hempty h.sound hlimit h.size_pos hlt hfit
  exact ⟨q, hfill⟩

theorem OnFile.seekStart (h : OnFile file index blocks r) (offset : Nat) :
    Stays (OnFile file index blocks) (onInner (Source.seekStart offset) r) := by
  obtain ⟨p, hin⟩ := h.inner
  rw [onInner_seekStart hin offset]
  exact h.moved ⟨offset, rfl⟩ rfl rfl rfl rfl (h.serves.congr rfl rfl rfl)

/-! ### Reads -/

theorem OnFile.movedTo (h : OnFile file index blocks r) (offset i : Nat) :
    OnFile file index blocks (r.movedTo ⟨file, offset, []⟩ i) :=
  ⟨⟨offset, rfl⟩, h.isPgzf, h.index_eq, h.size_pos, h.size_lt, h.sound.get i, .nil rfl rfl rfl⟩

/-- The reader that serves block `i` from `skip` on, the blocks of `queue` behind it. -/
def PgzfReader.serving (r : PgzfReader D) (data : Bytes) (skip : Nat) (queue : List Bytes) :
    PgzfReader D :=
  { r with currentBlock := data, currentPos := skip, readahead := queue }

theorem OnFile.serving (h : OnFile file index blocks r) {data : Bytes} {skip : Nat}
    {queue : List Bytes} (hdata : data ∈ blocks) (hskip : skip ≤ data.length)
    (hqueue : ∀ data ∈ queue, data ∈ blocks) :
    OnFile file index blocks (r.serving data skip queue) :=
  h.moved h.inner rfl rfl rfl rfl ⟨hskip, .inr hdata, hqueue⟩

theorem OnFile.serveTarget_idle (h : OnFile file index blocks r) (hempty : r.readahead = [])
    (hno : ¬ NeedsRefill index r) (skip : Nat) :
    serveTarget skip r = .ok () { r with eof := true } := by
  obtain ⟨eof, hfill⟩ := fillReadahead_idle h.isPgzf h.index_eq hno
  rw [serveTarget, bind_ok hfill, bind_ok (get_apply _)]
  simp only [hempty, set_apply]

theorem OnFile.serveTarget_refill (hd : Describes D file index blocks)
    (h : OnFile file index blocks r) (hneeds : NeedsRefill index r)
    (hfit : r.nextBlockIndex + r.readaheadSize < 2 ^ 64) (hlt : r.nextBlockIndex < blocks.length)
    (skip : Nat) :
    ∃ q,
      serveTarget skip r = .ok () ((r.refilled file blocks q).serving blocks[r.nextBlockIndex] skip
      ((blocks.drop (r.nextBlockIndex + 1)).take (batchStop blocks r r.nextBlockIndex -
        (r.nextBlockIndex + 1)))) := by
  obtain ⟨q, hfill⟩ := h.fillReadahead_refill hd hneeds hfit
  refine ⟨q, ?_⟩
  rw [serveTarget, bind_ok hfill, bind_ok (get_apply _)]
  simp only [h.readahead_refilled hlt q, set_apply]
  rfl

/-- The end of a seek to a block that is not cached: the end is noted, or the next block is served,
or the refill panics. -/
theorem OnFile.serveTarget_cases (hd : Describes D file index blocks)
    (h : OnFile file index blocks r) (hempty : r.readahead = []) (skip : Nat) :
    (¬ NeedsRefill index r ∧ serveTarget skip r = .ok () { r with eof := true }) ∨
      (NeedsRefill index r ∧ r.nextBlockIndex + r.readaheadSize < 2 ^ 64 ∧
        ∃ (hlt : r.nextBlockIndex < blocks.length) (q : Nat),
        serveTarget skip r =
          .ok () ((r.refilled file blocks q).serving blocks[r.nextBlockIndex] skip
          ((blocks.drop (r.nextBlockIndex + 1)).take (batchStop blocks r r.nextBlockIndex -
            (r.nextBlockIndex + 1))))) ∨
      NeedsRefill index r ∧ 2 ^ 64 ≤ r.nextBlockIndex + r.readaheadSize ∧
        serveTarget skip r = .error (.panic "attempt to add with overflow") r := by
  by_cases hneeds : NeedsRefill index r
  · by_cases hfit : r.nextBlockIndex + r.readaheadSize < 2 ^ 64
    · have hlt := hneeds.2.2
      rw [hd.blockCount] at hlt
      exact .inr (.inl ⟨hneeds, hfit, hlt, h.serveTarget_refill hd hneeds hfit hlt skip⟩)
    · have hover := Nat.not_lt.mp hfit
      refine .inr (.inr ⟨hneeds, hover, ?_⟩)
      rw [serveTarget, bind_error (fillReadahead_overflow h.isPgzf h.index_eq hneeds hover)]
  · exact .inl ⟨hneeds, h.serveTarget_idle hempty hneeds skip⟩

/-- Where a pending seek leads: behind the end it is forgotten; else to block `i`, which is served
from the cache or fetched. -/
theorem OnFile.executePendingSeek_cases (hd : Describes D file index blocks)
    (h : OnFile file index blocks r) {target : Nat} (hpending : r.pendingSeek = some target) :
    (blocks.flatten.length < target ∧
      ∃ e, executePendingSeek r = .error (.error e) { r with pendingSeek := none }) ∨
      ∃ i skip p, index.seekByte D target = .ok (i, skip) ∧ i ≤ blocks.length ∧
        target = offset blocks i + skip ∧
        (i = blocks.length → skip = 0) ∧
        ((∃ hi : i < blocks.length, skip < blocks[i].length ∧
          r.blockCache.lookup i = some blocks[i] ∧
            executePendingSeek r =
              .ok () ({ r.movedTo ⟨file, p, []⟩ i with nextBlockIndex := i + 1 }.serving blocks[i]
                skip [])) ∨
          (∀ hi : i < blocks.length, skip < blocks[i].length) ∧ r.blockCache.lookup i = none ∧
            executePendingSeek r = serveTarget skip (r.movedTo ⟨file, p, []⟩ i)) := by
  obtain ⟨p, hin⟩ := h.inner
  by_cases hpos : target ≤ blocks.flatten.length
  · obtain ⟨i, skip, hseek, hi, htarget, hinside, hend⟩ := seekByte_describes hd hpos
    obtain ⟨offset, hoffset⟩ := hd.compressedOffset_isSome hi
    cases hlookup : r.blockCache.lookup i with
    | some data =>
      obtain ⟨hlt, rfl⟩ := List.getElem?_eq_some_iff.mp (h.sound.lookup (i := i) hlookup)
      exact .inr ⟨i, skip, _, hseek, hi, htarget, hend, .inl ⟨hlt, hinside hlt, hlookup,
        executePendingSeek_hit hpending h.index_eq hseek hlookup (seekStart_inner hin _)⟩⟩
    | none =>
      exact .inr ⟨i, skip, offset, hseek, hi, htarget, hend, .inr ⟨hinside, hlookup,
        executePendingSeek_miss hpending h.index_eq hseek hlookup hoffset (seekStart_inner hin _)⟩⟩
  · have hbeyond := Nat.not_le.mp hpos
    exact .inl ⟨hbeyond, _, executePendingSeek_refused hpending h.index_eq
      (seekByte_beyond (by rwa [hd.totalUncompressed]))⟩

theorem OnFile.executePendingSeek (hd : Describes D file index blocks)
    (h : OnFile file index blocks r) :
    Post (fun _ r' => OnFile file index blocks r' ∧ r'.pendingSeek = none) (fun _ r' =>
      OnFile file index blocks r')
      (executePendingSeek r) := by
  cases hpending : r.pendingSeek with
  | none =>
    rw [executePendingSeek_none hpending]
    exact ⟨h, hpending⟩
  | some target =>
    rcases h.executePendingSeek_cases hd hpending with ⟨-, e, hseek⟩ | ⟨i, skip, p, -, -, -, -,
      ⟨hi, hskip, -, hseek⟩ | ⟨hinside, -, hseek⟩⟩
    · rw [hseek]
      exact h.moved h.inner rfl rfl rfl rfl (h.serves.congr rfl rfl rfl)
    · rw [hseek]
      refine ⟨OnFile.serving ?_ (List.getElem_mem hi) (Nat.le_of_lt hskip) fun _ hdata =>
        absurd hdata List.not_mem_nil, rfl⟩
      exact (h.movedTo p i).moved ⟨p, rfl⟩ rfl rfl rfl rfl (.nil rfl rfl rfl)
    · have hto := h.movedTo p i
      rw [hseek]
      rcases hto.serveTarget_cases hd rfl skip with ⟨-, hserve⟩ | ⟨-, -, hlt, q, hserve⟩ | ⟨-,
        -, hserve⟩
      · rw [hserve]
        exact ⟨hto.moved hto.inner rfl rfl rfl rfl (.nil rfl rfl rfl), rfl⟩
      · rw [hserve]
        exact ⟨(hto.refilled q).serving (List.getElem_mem hlt) (Nat.le_of_lt (hinside hlt))
            fun data hdata =>
          List.mem_of_mem_drop (List.mem_of_mem_take hdata), rfl⟩
      · rw [hserve]
        exact hto

theorem read_left (hidle : r.pendingSeek = none) (hleft : r.currentPos < r.currentBlock.length)
    {n : Nat} (hn : 0 < n) :
    PgzfReader.read n r = .ok ((r.currentBlock.drop r.currentPos).take n)
      { r with currentPos := r.currentPos + min (r.currentBlock.length - r.currentPos) n } := by
  rw [PgzfReader.read, if_neg (Nat.ne_of_gt hn), bind_ok (executePendingSeek_none hidle),
    bind_ok (get_apply _),
    if_pos hleft, bind_ok (set_apply _ _), pure_apply, take_min_length, List.length_drop]

theorem read_eof (hidle : r.pendingSeek = none) (hused : r.currentBlock.length ≤ r.currentPos)
    (heof : r.eof = true) {n : Nat} (hn : 0 < n) : PgzfReader.read n r = .ok [] r := by
  rw [PgzfReader.read, if_neg (Nat.ne_of_gt hn), bind_ok (executePendingSeek_none hidle),
    bind_ok (get_apply _), if_neg (Nat.not_lt.mpr hused), if_pos heof, pure_apply]

theorem read_next (hidle : r.pendingSeek = none) (hpgzf : r.isPgzf = true)
    (hused : r.currentBlock.length ≤ r.currentPos) (heof : r.eof = false) {n : Nat} (hn : 0 < n) :
    PgzfReader.read n r = (do
      match ← PgzfReader.serveNext n with
      | some out => return out
      | none =>
        PgzfReader.fillReadahead
        match ← PgzfReader.serveNext n with
        | some out => return out
        | none =>
          modify fun r => { r with eof := true }
          return [] : Prog (PgzfReader D) Bytes) r := by
  rw [PgzfReader.read, if_neg (Nat.ne_of_gt hn), bind_ok (executePendingSeek_none hidle),
    bind_ok (get_apply _),
    if_neg (Nat.not_lt.mpr hused), if_neg (by simp [heof]), readNextBlock, bind_ok (get_apply _)]
  exact congrFun (if_pos hpgzf) r

theorem read_queued (hidle : r.pendingSeek = none) (hpgzf : r.isPgzf = true)
    (hused : r.currentBlock.length ≤ r.currentPos) (heof : r.eof = false) {next : Bytes}
    {rest : List Bytes} (hqueue : r.readahead = next :: rest) {n : Nat} (hn : 0 < n) :
    PgzfReader.read n r = .ok (next.take n) (r.serving next (min next.length n) rest) := by
  rw [read_next hidle hpgzf hused heof hn, bind_ok (serveNext_cons hqueue n), take_min_length]
  rfl

theorem read_unfilled (hidle : r.pendingSeek = none) (hpgzf : r.isPgzf = true)
    (hindex : r.index = some index) (hused : r.currentBlock.length ≤ r.currentPos)
    (heof : r.eof = false) (hempty : r.readahead = []) (hno : ¬ NeedsRefill index r) {n : Nat}
    (hn : 0 < n) : PgzfReader.read n r = .ok [] { r with eof := true } := by
  obtain ⟨eof, hfill⟩ := fillReadahead_idle hpgzf hindex hno
  rw [read_next hidle hpgzf hused heof hn, bind_ok (serveNext_nil hempty n)]
  simp only
  rw [bind_ok hfill, bind_ok (serveNext_nil (by exact hempty) n)]
  simp only
  rw [bind_ok (modify_apply _ _), pure_apply, hempty]

theorem read_overflow (hidle : r.pendingSeek = none) (hpgzf : r.isPgzf = true)
    (hindex : r.index = some index) (hused : r.currentBlock.length ≤ r.currentPos)
    (heof : r.eof = false) (hneeds : NeedsRefill index r)
    (hover : 2 ^ 64 ≤ r.nextBlockIndex + r.readaheadSize) {n : Nat} (hn : 0 < n) :
    PgzfReader.read n r = .error (.panic "attempt to add with overflow") r := by
  rw [read_next hidle hpgzf hused heof hn, bind_ok (serveNext_nil hneeds.1 n)]
  exact bind_error (fillReadahead_overflow hpgzf hindex hneeds hover)

theorem OnFile.read_refill (hd : Describes D file index blocks) (h : OnFile file index blocks r)
    (hidle : r.pendingSeek = none) (hused : r.currentBlock.length ≤ r.currentPos)
    (heof : r.eof = false) (hneeds : NeedsRefill index r)
    (hfit : r.nextBlockIndex + r.readaheadSize < 2 ^ 64) (hlt : r.nextBlockIndex < blocks.length)
    {n : Nat} (hn : 0 < n) :
    ∃ q, PgzfReader.read n r = .ok (blocks[r.nextBlockIndex].take n)
      ((r.refilled file blocks q).serving blocks[r.nextBlockIndex]
        (min blocks[r.nextBlockIndex].length n)
        ((blocks.drop (r.nextBlockIndex + 1)).take (batchStop blocks r r.nextBlockIndex -
          (r.nextBlockIndex + 1)))) := by
  obtain ⟨q, hfill⟩ := h.fillReadahead_refill hd hneeds hfit
  refine ⟨q, ?_⟩
  rw [read_next hidle h.isPgzf hused heof hn, bind_ok (serveNext_nil hneeds.1 n)]
  simp only
  rw [bind_ok hfill, bind_ok (serveNext_cons (h.readahead_refilled hlt q) n), take_min_length]
  rfl

/-- A read with no seek pending: from the current block, at the end, from the queue, at a refill
that fetches nothing, from the batch that is fetched, or at a refill that panics. -/
theorem OnFile.read_cases (hd : Describes D file index blocks) (h : OnFile file index blocks r)
    (hidle : r.pendingSeek = none) {n : Nat} (hn : 0 < n) :
    (r.currentPos < r.currentBlock.length ∧
      PgzfReader.read n r = .ok ((r.currentBlock.drop r.currentPos).take n)
        { r with currentPos := r.currentPos + min (r.currentBlock.length - r.currentPos) n }) ∨
      (r.currentBlock.length ≤ r.currentPos ∧ r.eof = true ∧ PgzfReader.read n r = .ok [] r) ∨
      (r.currentBlock.length ≤ r.currentPos ∧ r.eof = false ∧ ∃ next rest,
        r.readahead = next :: rest ∧
        PgzfReader.read n r = .ok (next.take n) (r.serving next (min next.length n) rest)) ∨
      (r.currentBlock.length ≤ r.currentPos ∧ r.eof = false ∧ r.readahead = [] ∧
        ¬ NeedsRefill index r ∧
        PgzfReader.read n r = .ok [] { r with eof := true }) ∨
      (r.currentBlock.length ≤ r.currentPos ∧ r.eof = false ∧ NeedsRefill index r ∧
        r.nextBlockIndex + r.readaheadSize < 2 ^ 64 ∧
          ∃ (hlt : r.nextBlockIndex < blocks.length) (q : Nat),
        PgzfReader.read n r = .ok (blocks[r.nextBlockIndex].take n)
          ((r.refilled file blocks q).serving blocks[r.nextBlockIndex]
            (min blocks[r.nextBlockIndex].length n)
            ((blocks.drop (r.nextBlockIndex + 1)).take (batchStop blocks r r.nextBlockIndex -
              (r.nextBlockIndex + 1))))) ∨
      r.currentBlock.length ≤ r.currentPos ∧ r.eof = false ∧ NeedsRefill index r ∧
        2 ^ 64 ≤ r.nextBlockIndex + r.readaheadSize ∧
        PgzfReader.read n r = .error (.panic "attempt to add with overflow") r := by
  by_cases hleft : r.currentPos < r.currentBlock.length
  · exact .inl ⟨hleft, read_left hidle hleft hn⟩
  have hused := Nat.not_lt.mp hleft
  cases heof : r.eof with
  | true => exact .inr (.inl ⟨hused, rfl, read_eof hidle hused heof hn⟩)
  | false =>
    cases hqueue : r.readahead with
    | cons next rest =>
      exact .inr
        (.inr (.inl ⟨hused, rfl, next, rest, rfl, read_queued hidle h.isPgzf hused heof hqueue hn⟩))
    | nil =>
      by_cases hneeds : NeedsRefill index r
      · by_cases hfit : r.nextBlockIndex + r.readaheadSize < 2 ^ 64
        · have hlt := hneeds.2.2
          rw [hd.blockCount] at hlt
          exact .inr (.inr (.inr (.inr (.inl ⟨hused, rfl, hneeds, hfit, hlt,
            h.read_refill hd hidle hused heof hneeds hfit hlt hn⟩))))
        · have hover := Nat.not_lt.mp hfit
          exact .inr (.inr (.inr (.inr (.inr ⟨hused, rfl, hneeds, hover,
            read_overflow hidle h.isPgzf h.index_eq hused heof hneeds hover hn⟩))))
      · have hread := read_unfilled hidle h.isPgzf h.index_eq hused heof hqueue hneeds hn
        exact .inr (.inr (.inr (.inl ⟨hused, rfl, rfl, hneeds, hread.trans (by rw [hqueue])⟩)))

/-- A pending seek that leads to a place in the data is carried out first. -/
theorem OnFile.read (hd : Describes D file index blocks) (h : OnFile file index blocks r)
    (n : Nat) :
    Stays (OnFile file index blocks) (PgzfReader.read n r) := by
  rcases Nat.eq_zero_or_pos n with rfl | hn
  · rw [read_zero]
    exact h
  have hseek := h.executePendingSeek hd
  cases hrun : PgzfReader.executePendingSeek r with
  | error e mid =>
    rw [hrun] at hseek
    rw [PgzfReader.read, if_neg (Nat.ne_of_gt hn), bind_error hrun]
    exact hseek
  | ok u mid =>
    rw [hrun] at hseek
    obtain ⟨hmid, hidle⟩ := hseek
    rw [read_of_executePendingSeek hrun hidle (Nat.ne_of_gt hn)]
    clear hrun h
    replace h : OnFile file index blocks mid := hmid
    rcases h.read_cases hd hidle hn with ⟨hleft, hread⟩ | ⟨-, -, hread⟩ | ⟨-, -, next, rest,
      hqueue, hread⟩ | ⟨-, -, -, -, hread⟩ | ⟨-, -, -, -, hlt, q, hread⟩ | ⟨-, -, -, -, hread⟩
    · rw [hread]
      refine h.moved h.inner rfl rfl rfl rfl ⟨?_, h.serves.current, h.serves.queued⟩
      simp only
      omega
    · rw [hread]
      exact h
    · rw [hread]
      have hqueued := h.serves.queued
      rw [hqueue] at hqueued
      exact h.serving (hqueued next List.mem_cons_self) (Nat.min_le_left _ _) fun data hdata =>
        hqueued data (List.mem_cons_of_mem next hdata)
    · rw [hread]
      exact h.moved h.inner rfl rfl rfl rfl (h.serves.congr rfl rfl rfl)
    · rw [hread]
      exact (h.refilled q).serving (List.getElem_mem hlt) (Nat.min_le_left _ _) fun data hdata =>
        List.mem_of_mem_drop (List.mem_of_mem_take hdata)
    · rw [hread]
      exact h

/-! ### The other calls -/

def PgzfReader.noted (r : PgzfReader D) (target : Nat) : PgzfReader D :=
  { r with
    pendingSeek := some target, nextBlockIndex := 0, currentBlock := [], currentPos := 0
    readahead := [] }

theorem seekToByte_noted (hpgzf : r.isPgzf = true) (offset : Nat) :
    seekToByte offset r = .ok () (r.noted offset) := by
  rw [PgzfReader.seekToByte, bind_ok (get_apply _)]
  simp only [hpgzf, Bool.not_true, Bool.false_eq_true, if_false, set_apply, noted]

def asI64 (n : Nat) : Int := if n < 2 ^ 63 then n else (n : Int) - 2 ^ 64

def I64Fits (n : Nat) (m : Int) : Prop := -2 ^ 63 ≤ asI64 n + m ∧ asI64 n + m < 2 ^ 63

theorem offsetI64_of_fits {σ : Type} {n : Nat} {m : Int} (h : I64Fits n m) (s : σ) :
    offsetI64 n m s = .ok ((asI64 n + m) % 2 ^ 64).toNat s :=
  congrFun (if_pos h) s

theorem offsetI64_of_not_fits {σ : Type} {n : Nat} {m : Int} (h : ¬ I64Fits n m) (s : σ) :
    offsetI64 n m s = .error (.panic "attempt to add with overflow") s :=
  congrFun (if_neg h) s

theorem seek_start (n : Nat) (r : PgzfReader D) :
    PgzfReader.seek (.start n) r = .ok n (r.noted n) := rfl

theorem seek_fromEnd (hpgzf : r.isPgzf = true) (hindex : r.index = some index) (m : Int) :
    (I64Fits index.totalUncompressed m → PgzfReader.seek (.fromEnd m) r =
      .ok ((asI64 index.totalUncompressed + m) % 2 ^ 64).toNat
        (r.noted ((asI64 index.totalUncompressed + m) % 2 ^ 64).toNat)) ∧
      (¬ I64Fits index.totalUncompressed m →
        PgzfReader.seek (.fromEnd m) r = .error (.panic "attempt to add with overflow") r) := by
  rw [PgzfReader.seek, bind_ok (get_apply _)]
  simp only [hpgzf, hindex, Bool.not_true, Bool.false_eq_true, if_false, Option.map_some,
    Option.getD_some]
  constructor
  · intro hfits
    rw [bind_ok (offsetI64_of_fits hfits r), bind_ok (modify_apply _ _), pure_apply, noted]
  · intro hfits
    exact bind_error (offsetI64_of_not_fits hfits r)

theorem seek_current (r : PgzfReader D) (m : Int) :
    (I64Fits r.currentPos m → PgzfReader.seek (.current m) r =
      .ok ((asI64 r.currentPos + m) % 2 ^ 64).toNat
        (r.noted ((asI64 r.currentPos + m) % 2 ^ 64).toNat)) ∧
      (¬ I64Fits r.currentPos m →
        PgzfReader.seek (.current m) r = .error (.panic "attempt to add with overflow") r) := by
  rw [PgzfReader.seek, bind_ok (get_apply _)]
  simp only
  constructor
  · intro hfits
    rw [bind_ok (offsetI64_of_fits hfits r), bind_ok (modify_apply _ _), pure_apply, noted]
  · intro hfits
    exact bind_error (offsetI64_of_not_fits hfits r)

theorem OnFile.noted (h : OnFile file index blocks r) (target : Nat) :
    OnFile file index blocks (r.noted target) :=
  h.moved h.inner rfl rfl rfl rfl (.nil rfl rfl rfl)

theorem OnFile.readOneRawBlock (h : OnFile file index blocks r) :
    Stays (OnFile file index blocks) (readOneRawBlock r) := by
  obtain ⟨p, hin⟩ := h.inner
  have hkeeps := readOneRawBlock_keeps (P := OnFile file index blocks) hin
    fun q _ => h.moved ⟨q, rfl⟩ rfl rfl rfl rfl (h.serves.congr rfl rfl rfl)
  exact hkeeps.mono (fun _ _ hfound => hfound.1) fun _ _ hfailed => hfailed.1

theorem callInvariant_onFile (hd : Describes D file index blocks) :
    CallInvariant (D := D) (OnFile file index blocks) fun _ _ => True where
  raw h := h.readOneRawBlock.mono (fun _ _ h' => ⟨h', fun _ _ _ => trivial⟩) fun _ _ h' => h'
  seekStart offset h := h.seekStart offset
  counted _ h := h.moved h.inner rfl rfl rfl rfl (h.serves.congr rfl rfl rfl)
  cleared _ _ _ h := h.moved h.inner rfl rfl rfl rfl (.nil rfl rfl rfl)
  read n h := h.read hd n

/-! ### Sessions -/

theorem OnFile.call (hd : Describes D file index blocks) (h : OnFile file index blocks r)
    (call : BlockCall) :
    Stays (OnFile file index blocks) (call.run r) :=
  (callInvariant_onFile hd).call h call

theorem OnFile.setting (h : OnFile file index blocks r) (hstep : SettingStep r r') :
    OnFile file index blocks r' := by
  have hserves : Serves blocks r' :=
    h.serves.congr (by cases hstep <;> rfl) (by cases hstep <;> rfl) (by cases hstep <;> rfl)
  cases hstep with
  | @withReadahead size hsize =>
    refine ⟨h.inner, h.isPgzf, h.index_eq, ?_, ?_, h.sound, hserves⟩
    · simp only [PgzfReader.withReadahead]
      omega
    · simp only [PgzfReader.withReadahead]
      omega
  | withReadaheadMemoryLimit maxBytes => exact h.moved h.inner rfl rfl rfl rfl hserves
  | withBlockCache capacity =>
    exact ⟨h.inner, h.isPgzf, h.index_eq, h.size_pos, h.size_lt, BlockCache.sound_new _ _, hserves⟩
  | withBlockCacheMemoryLimit capacity maxBytes =>
    exact ⟨h.inner, h.isPgzf, h.index_eq, h.size_pos, h.size_lt,
      (BlockCache.sound_new _ _).withMemoryLimit _, hserves⟩

theorem OnFile.step (hd : Describes D file index blocks) (h : OnFile file index blocks r)
    (hstep : ReaderStep r r') :
    OnFile file index blocks r' := by
  cases hstep with
  | setting hsetting => exact h.setting hsetting
  | call call hcall =>
    have hpost := Prog.post_attempt (S := fun _ r' => OnFile file index blocks r') (h.call hd call)
      (fun _ _ h' => h') fun _ _ h' => h'
    rw [hcall] at hpost
    exact hpost

theorem onFile_fresh (D : Deps) (file : Bytes) (index : PgzfIndex) (blocks : List Bytes) :
    OnFile file index blocks (fresh D file index) :=
  ⟨⟨0, rfl⟩, rfl, rfl, show 0 < defaultReadahead by decide,
    show defaultReadahead < 2 ^ 64 by decide, BlockCache.sound_new _ _, .nil rfl rfl rfl⟩

theorem Reachable.onFile (hd : Describes D file index blocks) {q : Nat} {s' : Source}
    (hnew : new D ⟨file, q, []⟩ = .ok (fresh D file index) s') (h : Reachable ⟨file, q, []⟩ r) :
    OnFile file index blocks r := by
  obtain ⟨reader, _, hreader, hsteps⟩ := h
  obtain ⟨rfl, -⟩ := EStateM.Result.ok.inj (hnew.symm.trans hreader)
  induction hsteps with
  | refl => exact onFile_fresh D file index blocks
  | tail _ hstep ih => exact ih.step hd hstep

/-! ### Written files -/

theorem Leads.le {p q : Nat} (h : Leads file p q) : p ≤ q := by
  induction h with
  | here p => exact Nat.le_refl p
  | idx _ _ ih => omega

theorem Stands.length_le {raws : List Bytes} {offsets : List Nat} {p : Nat}
    (h : Stands D file p raws blocks offsets) (hp : p ≤ file.length) :
    p + 2 * blocks.length ≤ file.length := by
  induction h with
  | stop _ => exact hp
  | block hleads hmember _ _ _ ih =>
    have hle := hleads.le
    have hbase := base_le_of_memberAt hmember
    have hlen := length_of_memberAt hmember
    have hrest := ih hlen.2
    rw [gzipFixedHeaderSize] at hbase
    rw [List.length_cons]
    omega

section Written

open PgzfWriter

variable {config : PgzfConfig} {calls : List WriteCall}

/-- What a run of the writer leaves in an empty sink,
where the configuration and the data are in bounds. -/
structure Written (D : Deps) (config : PgzfConfig) (calls : List WriteCall) (file : Bytes) :
    Prop where
  blockSize_pos : 1 ≤ config.blockSize
  batchSize_pos : 1 ≤ config.compressionBatchSize
  inBounds : InBounds D config (calls.flatMap WriteCall.bytes)
  addressable : (fileBytes D config.compressionLevel
    (config.groupsOf (calls.flatMap WriteCall.bytes))).length < 2 ^ 64
  codec : Codec D config (calls.flatMap WriteCall.bytes)
  run : ∃ out w, runCalls D (Sink.atEnd []) config calls = .ok out w ∧ out.cursor.bytes = file

/-- The configuration with a block size no larger than the payload needs. -/
def PgzfConfig.fitted (config : PgzfConfig) (payload : Bytes) : PgzfConfig :=
  { config with blockSize := min config.blockSize (max 1 payload.length) }

theorem blocksOf_fitted (hsize : 1 ≤ config.blockSize) (payload : Bytes) :
    (config.fitted payload).blocksOf payload = config.blocksOf payload := by
  show Chunks.chunks (min config.blockSize (max 1 payload.length)) payload =
    Chunks.chunks config.blockSize payload
  rcases Nat.le_total config.blockSize (max 1 payload.length) with hle | hle
  · rw [Nat.min_eq_left hle]
  rcases List.eq_nil_or_concat payload with rfl | hne
  · rfl
  · have hne' : payload ≠ [] := by
      obtain ⟨front, last, rfl⟩ := hne
      simp
    rw [Nat.min_eq_right hle, Chunks.chunks_of_length_le (by omega) hne' (by omega),
      Chunks.chunks_of_length_le hsize hne' (by omega)]

theorem groupsOf_fitted (hsize : 1 ≤ config.blockSize) (payload : Bytes) :
    (config.fitted payload).groupsOf payload = config.groupsOf payload := by
  rw [PgzfConfig.groupsOf, PgzfConfig.groupsOf, blocksOf_fitted hsize]
  rfl

theorem Written.withinLimits (h : Written D config calls file) :
    WithinLimits D (2 ^ 30) (config.fitted (calls.flatMap WriteCall.bytes))
      (calls.flatMap WriteCall.bytes) := by
  have hgroups := groupsOf_fitted h.blockSize_pos (calls.flatMap WriteCall.bytes)
  have hfits := h.inBounds.fits h.blockSize_pos
  have hlength := h.inBounds.blockLength
  refine ⟨?_, ?_, h.batchSize_pos, ?_, ?_, ?_, ?_⟩
  · have hpos := h.blockSize_pos
    simp only [PgzfConfig.fitted]
    omega
  · simp only [PgzfConfig.fitted]
    omega
  · rw [hgroups]
    exact fun blocks hblocks => (hfits blocks hblocks).length_le
  · rw [hgroups]
    exact fun blocks hblocks => (hfits blocks hblocks).member
  · rw [hgroups]
    exact fun blocks hblocks => (hfits blocks hblocks).idx
  · rw [hgroups]
    exact h.addressable

theorem Written.fitted (h : Written D config calls file) :
    Written D (config.fitted (calls.flatMap WriteCall.bytes)) calls file := by
  have hlimits := h.withinLimits
  have hgroups := groupsOf_fitted h.blockSize_pos (calls.flatMap WriteCall.bytes)
  have hcodec : Codec D (config.fitted (calls.flatMap WriteCall.bytes))
      (calls.flatMap WriteCall.bytes) := by
    rw [Codec, blocksOf_fitted h.blockSize_pos]
    exact h.codec
  obtain ⟨out, w, hrun, rfl⟩ := h.run
  obtain ⟨w', hrun', hrep⟩ :=
    runCalls_represents h.blockSize_pos h.inBounds.allocated h.batchSize_pos h.codec.compresses []
  obtain ⟨rfl, rfl⟩ := EStateM.Result.ok.inj (hrun.symm.trans hrun')
  obtain ⟨w'', hrun'', hrep'⟩ := runCalls_represents hlimits.blockSize_pos hlimits.allocated
    hlimits.batchSize_pos hcodec.compresses []
  refine ⟨hlimits.blockSize_pos, h.batchSize_pos, ?_, hlimits.addressable, hcodec, w''.inner, w'',
    hrun'', ?_⟩
  · apply inBounds_of_fits hlimits.blockSize_pos hlimits.allocated
    rw [hgroups]
    exact h.inBounds.fits h.blockSize_pos
  · rw [hrep.cursor, hrep'.cursor, hgroups]
    rfl

theorem Written.file_eq (h : Written D config calls file) :
    file = fileBytes D config.compressionLevel
      (config.groupsOf (calls.flatMap WriteCall.bytes)) := by
  obtain ⟨out, w, hrun, rfl⟩ := h.run
  obtain ⟨w', hrun', hrep⟩ :=
    runCalls_represents h.blockSize_pos h.inBounds.allocated h.batchSize_pos h.codec.compresses []
  obtain ⟨rfl, rfl⟩ := EStateM.Result.ok.inj (hrun.symm.trans hrun')
  rw [hrep.cursor]
  exact List.nil_append _

/-- A reader of a written file is on that file, whose blocks can be counted with 63 bits. -/
theorem Reachable.written (hw : Written D config calls file) {q : Nat}
    (h : Reachable ⟨file, q, []⟩ r) :
    ∃ index raws, Laid D file index raws (config.blocksOf (calls.flatMap WriteCall.bytes)) ∧
      OnFile file index (config.blocksOf (calls.flatMap WriteCall.bytes)) r ∧
        (config.blocksOf (calls.flatMap WriteCall.bytes)).length < 2 ^ 63 := by
  have hlimits := hw.withinLimits
  have hblocks := blocksOf_fitted hw.blockSize_pos (calls.flatMap WriteCall.bytes)
  obtain ⟨out, w, hrun, rfl⟩ := hw.fitted.run
  obtain ⟨reader, s', hnew, -⟩ := id h
  have hfront : new D ⟨out.cursor.bytes, 0, []⟩ = .ok reader s' := by
    rw [new, bind_ok (Source.seekStart_apply _ _ _)] at hnew ⊢
    exact hnew
  obtain ⟨index, raws, rfl, hl, -⟩ := laid_written hlimits hw.fitted.codec hrun hfront
  rw [hblocks] at hl
  refine ⟨index, raws, hl, h.onFile hl.described hnew, ?_⟩
  have hbound := hlimits.addressable
  rw [groupsOf_fitted hw.blockSize_pos] at hbound
  have hlen := hl.stands.length_le (Nat.zero_le _)
  rw [hw.file_eq] at hlen
  simp only [PgzfConfig.fitted] at hbound
  omega

theorem Reachable.payload_ne_nil (hw : Written D config calls file) {q : Nat}
    (h : Reachable (D := D) ⟨file, q, []⟩ r) :
    calls.flatMap WriteCall.bytes ≠ [] := by
  intro hempty
  obtain ⟨reader, s', hnew, -⟩ := h
  have hnil : file = [] := hw.file_eq.trans (by rw [hempty]; rfl)
  rw [hnil, new_nil] at hnew
  exact absurd hnew (by simp)

end Written

end Pgzf
