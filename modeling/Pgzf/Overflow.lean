import Pgzf.BlockRanges
import Pgzf.Displaced

/-!
# Arguments and the range of the machine words

The arguments of the reader's calls meet its state in a few sums: the end of a range of blocks, the
end of the batch of a refill, the target of a relative seek, and the negation of a block number.
None of them is checked, so each fits into its word under a condition on the argument and the state,
and the call panics otherwise. Where a sum fits, a count that reaches behind the last block is the
same as the number of blocks.
-/

namespace Pgzf

open PgzfReader PgzfIndex Program BlockCursor

variable {D : Deps} {file : Bytes} {index : PgzfIndex} {blocks : List Bytes} {r r' : PgzfReader D}

def Panics {α : Type} (result : EStateM.Result Fault (PgzfReader D) α) : Prop :=
  ∃ message s, result = .error (.panic message) s

theorem not_panics_ok {α : Type} {a : α} {s : PgzfReader D} : ¬ Panics (.ok a s) := by
  rintro ⟨message, s', h⟩
  exact absurd h (by simp)

theorem not_panics_error {α : Type} {e : PgzfError} {s : PgzfReader D} :
    ¬ Panics (.error (.error e) s : EStateM.Result Fault (PgzfReader D) α) := by
  rintro ⟨message, s', h⟩
  exact absurd h (by simp)

/-! ### Ranges of blocks -/

theorem readBlocks_overflow (hpgzf : r.isPgzf = true) (hindex : r.index = some index)
    {start count : Nat} (hstart : start < index.blockCount) (hover : 2 ^ 64 ≤ start + count) :
    readBlocks start count r = .error (.panic "attempt to add with overflow") r := by
  rw [readBlocks, bind_ok (get_apply _)]
  simp only [hpgzf, hindex, Bool.not_true, Bool.false_eq_true, if_false]
  rw [if_neg (Nat.not_le.mpr hstart), bind_error (addU64_of_le hover r)]

theorem readBlocks_all (hpgzf : r.isPgzf = true) (hindex : r.index = some index) {start count : Nat}
    (hcount : index.blockCount ≤ count) (hsum : start < index.blockCount → start + count < 2 ^ 64) :
    readBlocks start count r = readBlocks start index.blockCount r := by
  by_cases hstart : index.blockCount ≤ start
  · rw [readBlocks_beyond hpgzf hindex hstart, readBlocks_beyond hpgzf hindex hstart]
  · have hlt := Nat.not_le.mp hstart
    have hfit := hsum hlt
    rw [readBlocks, bind_ok (get_apply _)]
    simp only [hpgzf, hindex, Bool.not_true, Bool.false_eq_true, if_false]
    rw [readBlocks, bind_ok (get_apply _)]
    simp only [hpgzf, hindex, Bool.not_true, Bool.false_eq_true, if_false]
    rw [if_neg hstart, if_neg hstart, bind_ok (addU64_of_lt hfit r),
      bind_ok (addU64_of_lt (by omega) r),
      Nat.min_eq_left (show index.blockCount ≤ start + count by omega),
      Nat.min_eq_left (show index.blockCount ≤ start + index.blockCount by omega)]

theorem OnFile.readBlocks_panics_iff (hd : Describes D file index blocks)
    (h : OnFile file index blocks r) (start count : Nat) :
    Panics (PgzfReader.readBlocks start count r) ↔ start < blocks.length ∧
      2 ^ 64 ≤ start + count := by
  have hblocks := hd.blockCount
  by_cases hstart : blocks.length ≤ start
  · rw [readBlocks_beyond h.isPgzf h.index_eq (by omega) count]
    exact iff_of_false not_panics_error (by omega)
  by_cases hsum : start + count < 2 ^ 64
  · refine iff_of_false ?_ (by omega)
    rcases Nat.eq_zero_or_pos count with rfl | hpos
    · rw [readBlocks_zero h.isPgzf h.index_eq (by omega) (by omega)]
      exact not_panics_ok
    · obtain ⟨q, hread⟩ := h.readBlocks_eq hd (by omega) hpos hsum
      rw [hread]
      exact not_panics_ok
  · refine iff_of_true ?_ (by omega)
    exact ⟨_, r, readBlocks_overflow h.isPgzf h.index_eq (by omega) (by omega)⟩

/-! ### Refills -/

/-- The end of the batch of a refill the next read makes fits into 64 bits. -/
def RefillFits (r : PgzfReader D) : Prop :=
  ∀ index start, r.index = some index → refillStart index r = some start →
    start < index.blockCount → BelowLimit r → start + r.readaheadSize < 2 ^ 64

theorem not_refillFits_iff (hindex : r.index = some index) :
    ¬ RefillFits r ↔ ∃ start, refillStart index r = some start ∧
    start < index.blockCount ∧ BelowLimit r ∧ 2 ^ 64 ≤ start + r.readaheadSize := by
  constructor
  · intro h
    rw [RefillFits] at h
    push Not at h
    obtain ⟨index', start, hindex', hstart, hlt, hbelow, hover⟩ := h
    obtain rfl := Option.some.inj (hindex.symm.trans hindex')
    exact ⟨start, hstart, hlt, hbelow, hover⟩
  · rintro ⟨start, hstart, hlt, hbelow, hover⟩ h
    exact absurd (h index start hindex hstart hlt hbelow) (Nat.not_lt.mpr hover)

/-- Without a pending seek, a refill is made behind the current block and the queue. -/
theorem refillStart_idle (hidle : r.pendingSeek = none) (start : Nat) :
    refillStart index r = some start ↔
    r.currentBlock.length ≤ r.currentPos ∧ r.eof = false ∧ r.readahead = [] ∧
      r.nextBlockIndex = start := by
  rw [refillStart, hidle]
  simp only
  split
  · rename_i hno
    apply iff_of_false (by simp)
    rintro ⟨hused, heof, hqueue, -⟩
    rcases hno with hleft | hnoted | hqueued
    · omega
    · exact absurd (heof.symm.trans hnoted) (by simp)
    · exact hqueued hqueue
  · rename_i hyes
    obtain ⟨hleft, hyes⟩ := not_or.mp hyes
    obtain ⟨heof, hqueue⟩ := not_or.mp hyes
    rw [Option.some_inj]
    exact ⟨fun hstart => ⟨Nat.not_lt.mp hleft, Bool.not_eq_true _ ▸ heof, not_not.mp hqueue,
      hstart⟩, fun h => h.2.2.2⟩

theorem needsRefill_idle (index : PgzfIndex) (hidle : r.pendingSeek = none)
    (hqueue : r.readahead = []) :
    NeedsRefill index r ↔ BelowLimit r ∧ r.nextBlockIndex < index.blockCount := by
  have husage : r.totalMemoryUsage = refillUsage r := by
    rw [refillUsage, hidle, totalMemoryUsage, readaheadMemoryUsage, hqueue]
    rfl
  rw [NeedsRefill, husage]
  exact and_iff_right hqueue

theorem OnFile.read_panics_iff_idle (hd : Describes D file index blocks)
    (h : OnFile file index blocks r) (hidle : r.pendingSeek = none) {n : Nat} (hn : 0 < n) :
    Panics (PgzfReader.read n r) ↔ ¬ RefillFits r := by
  rw [not_refillFits_iff h.index_eq]
  simp only [refillStart_idle hidle]
  rcases h.read_cases hd hidle hn with ⟨hleft, hread⟩ | ⟨-, heof, hread⟩ | ⟨-, -, next, rest,
    hqueue, hread⟩ |
    ⟨-, -, hqueue, hno, hread⟩ | ⟨-, -, -, hfit, hlt, q, hread⟩ | ⟨hused, heof, hneeds,
      hover, hread⟩
  · rw [hread]
    apply iff_of_false not_panics_ok
    rintro ⟨-, ⟨hused, -⟩, -⟩
    omega
  · rw [hread]
    apply iff_of_false not_panics_ok
    rintro ⟨-, ⟨-, hmore, -⟩, -⟩
    exact absurd (heof.symm.trans hmore) (by simp)
  · rw [hread]
    apply iff_of_false not_panics_ok
    rintro ⟨-, ⟨-, -, hempty, -⟩, -⟩
    exact absurd (hqueue.symm.trans hempty) (by simp)
  · rw [hread]
    apply iff_of_false not_panics_ok
    rintro ⟨_, ⟨-, -, -, rfl⟩, hlt, hbelow, -⟩
    exact hno ((needsRefill_idle index hidle hqueue).mpr ⟨hbelow, hlt⟩)
  · rw [hread]
    apply iff_of_false not_panics_ok
    rintro ⟨_, ⟨-, -, -, rfl⟩, -, -, hover⟩
    omega
  · have hqueue := hneeds.1
    obtain ⟨hbelow, hlt⟩ := (needsRefill_idle index hidle hqueue).mp hneeds
    rw [hread]
    exact iff_of_true ⟨_, r, rfl⟩ ⟨_, ⟨hused, heof, hqueue, rfl⟩, hlt, hbelow, hover⟩

/-- A read that first carries out a seek panics where the seek does. -/
theorem OnFile.read_panics_iff_pending (hd : Describes D file index blocks)
    (h : OnFile file index blocks r) {target : Nat} (hpending : r.pendingSeek = some target)
    {n : Nat} (hn : 0 < n) : Panics (PgzfReader.read n r) ↔ ¬ RefillFits r := by
  rw [not_refillFits_iff h.index_eq]
  rcases h.executePendingSeek_cases hd hpending with ⟨hbeyond, e, hseek⟩ | ⟨i, skip, p,
    hfound, -, -, -, ⟨hi, hskip, hlookup, hseek⟩ | ⟨hinside, hlookup, hseek⟩⟩
  · rw [PgzfReader.read, if_neg (Nat.ne_of_gt hn), bind_error hseek]
    apply iff_of_false not_panics_error
    rintro ⟨start, hstart, -⟩
    rw [refillStart] at hstart
    simp only [hpending, seekByte_beyond (D := D)
      (show index.totalUncompressed < target by rwa [hd.totalUncompressed])] at hstart
    exact absurd hstart (by simp)
  · have hread := read_of_executePendingSeek hseek rfl (Nat.ne_of_gt hn)
    rw [hread, read_left rfl (by exact hskip) hn]
    apply iff_of_false not_panics_ok
    rintro ⟨start, hstart, -⟩
    rw [refillStart_pending hpending hfound, hlookup] at hstart
    exact absurd hstart (by simp)
  · have hstart : ∀ start, refillStart index r = some start ↔ i = start := fun start => by
      rw [refillStart_pending hpending hfound, hlookup, if_pos Option.isNone_none, Option.some_inj]
    simp only [hstart, exists_eq_left']
    have hiff := needsRefill_movedTo index hpending ⟨file, p, []⟩ i
    rcases (h.movedTo p i).serveTarget_cases hd rfl skip with ⟨hno, hserve⟩ | ⟨hneeds, hfit, hlt,
      q, hserve⟩ | ⟨hneeds, hover, hserve⟩
    · rw [read_of_executePendingSeek (hseek.trans hserve) rfl (Nat.ne_of_gt hn),
        read_eof rfl (Nat.le_refl _) rfl hn]
      apply iff_of_false not_panics_ok
      rintro ⟨hlt, hbelow, -⟩
      exact hno (hiff.mpr ⟨hbelow, hlt⟩)
    · rw [read_of_executePendingSeek (hseek.trans hserve) rfl (Nat.ne_of_gt hn),
        read_left rfl (by exact hinside hlt) hn]
      apply iff_of_false not_panics_ok
      rintro ⟨-, -, hover⟩
      exact absurd hfit (Nat.not_lt.mpr hover)
    · obtain ⟨hbelow, hlt⟩ := hiff.mp hneeds
      rw [PgzfReader.read, if_neg (Nat.ne_of_gt hn), bind_error (hseek.trans hserve)]
      exact iff_of_true ⟨_, _, rfl⟩ ⟨hlt, hbelow, hover⟩

theorem OnFile.read_panics_iff (hd : Describes D file index blocks) (h : OnFile file index blocks r)
    (n : Nat) :
    Panics (PgzfReader.read n r) ↔ 0 < n ∧ ¬ RefillFits r := by
  rcases Nat.eq_zero_or_pos n with rfl | hn
  · rw [read_zero]
    exact iff_of_false not_panics_ok fun h => absurd h.1 (Nat.lt_irrefl 0)
  · rw [and_iff_right hn]
    cases hpending : r.pendingSeek with
    | none => exact h.read_panics_iff_idle hd hpending hn
    | some target => exact h.read_panics_iff_pending hd hpending hn

/-! ### A readahead of all blocks -/

/-- The second reader is the first one with a readahead
of `count` blocks, its source standing somewhere. -/
def WithReadahead (count : Nat) (r r' : PgzfReader D) : Prop :=
  ∃ p, r' = (r.withReadahead count).withCursor p

theorem WithReadahead.same (count : Nat) (r : PgzfReader D) :
    WithReadahead count r (r.withReadahead count) :=
  ⟨r.inner.pos, rfl⟩

theorem batchStop_all (hlarge : blocks.length ≤ r.readaheadSize) (start : Nat) :
    batchStop blocks (r.withReadahead blocks.length) start = batchStop blocks r start := by
  simp only [batchStop, withReadahead]
  omega

theorem refilled_all (hlarge : blocks.length ≤ r.readaheadSize) (file : Bytes) (q q' : Nat) :
    (r.withReadahead blocks.length).refilled file blocks q' =
      ((r.refilled file blocks q).withReadahead blocks.length).withCursor q' := by
  have hstop := batchStop_all hlarge r.nextBlockIndex
  simp only [PgzfReader.refilled, withReadahead, withCursor] at hstop ⊢
  rw [hstop]

theorem OnFile.read_all_idle (hd : Describes D file index blocks) (h : OnFile file index blocks r)
    (hcount : blocks.length < 2 ^ 63) (hlarge : blocks.length ≤ r.readaheadSize)
    (hidle : r.pendingSeek = none) {n : Nat} (hn : 0 < n) (hfits : ¬ Panics (PgzfReader.read n r)) :
    Ends (WithReadahead blocks.length) Eq (PgzfReader.read n r)
      (PgzfReader.read n (r.withReadahead blocks.length)) := by
  have hall : OnFile file index blocks (r.withReadahead blocks.length) :=
    h.setting (.withReadahead (by omega))
  rcases h.read_cases hd hidle hn with ⟨hleft, hread⟩ | ⟨hused, heof, hread⟩ | ⟨hused, heof, next,
    rest, hqueue, hread⟩ |
    ⟨hused, heof, hqueue, hno, hread⟩ | ⟨hused, heof, hneeds, hfit, hlt, q, hread⟩ | ⟨-, -,
      -, -, hread⟩
  · rw [hread, read_left (r := r.withReadahead blocks.length) hidle hleft hn]
    exact ⟨rfl, .same _ _⟩
  · rw [hread, read_eof (r := r.withReadahead blocks.length) hidle hused heof hn]
    exact ⟨rfl, .same _ _⟩
  · rw [hread, read_queued (r := r.withReadahead blocks.length) hidle h.isPgzf hused heof hqueue hn]
    exact ⟨rfl, .same _ _⟩
  · rw [hread, read_unfilled (r := r.withReadahead blocks.length) hidle h.isPgzf h.index_eq hused
      heof hqueue hno hn]
    exact ⟨rfl, .same _ _⟩
  · obtain ⟨q', hread'⟩ := hall.read_refill hd hidle hused heof hneeds
      (show r.nextBlockIndex + max blocks.length 1 < 2 ^ 64 by omega) hlt hn
    rw [hread, hread', batchStop_all hlarge]
    refine ⟨rfl, q', ?_⟩
    rw [refilled_all hlarge file q q']
    rfl
  · exact absurd ⟨_, _, hread⟩ hfits

theorem OnFile.read_all_pending (hd : Describes D file index blocks)
    (h : OnFile file index blocks r) (hcount : blocks.length < 2 ^ 63)
    (hlarge : blocks.length ≤ r.readaheadSize) {target : Nat}
    (hpending : r.pendingSeek = some target) {n : Nat} (hn : 0 < n)
    (hfits : ¬ Panics (PgzfReader.read n r)) :
    Ends (WithReadahead blocks.length) Eq (PgzfReader.read n r)
      (PgzfReader.read n (r.withReadahead blocks.length)) := by
  obtain ⟨p₀, hin⟩ := h.inner
  have hne := Nat.ne_of_gt hn
  by_cases hpos : target ≤ blocks.flatten.length
  · obtain ⟨i, skip, hseek, hi, -, hinside, -⟩ := seekByte_describes hd hpos
    obtain ⟨offset, hoffset⟩ := hd.compressedOffset_isSome hi
    cases hlookup : r.blockCache.lookup i with
    | some data =>
      obtain ⟨hlt, rfl⟩ := List.getElem?_eq_some_iff.mp (h.sound.lookup (i := i) hlookup)
      have hgo := seekStart_inner hin ((index.compressedOffset (i + 1)).getD index.totalCompressed)
      have hleft : skip < blocks[i].length := hinside hlt
      rw [read_of_executePendingSeek
        (executePendingSeek_hit hpending h.index_eq hseek hlookup hgo) rfl hne,
        read_of_executePendingSeek
          (executePendingSeek_hit (r := r.withReadahead blocks.length) hpending h.index_eq hseek
            hlookup hgo) rfl hne,
        read_left rfl hleft hn, read_left rfl hleft hn]
      exact ⟨rfl, .same _ _⟩
    | none =>
      have hgo := seekStart_inner hin offset
      have hmiss := executePendingSeek_miss hpending h.index_eq hseek hlookup hoffset hgo
      have hmiss' : PgzfReader.executePendingSeek (r.withReadahead blocks.length) =
          serveTarget skip ((r.movedTo ⟨file, offset, []⟩ i).withReadahead blocks.length) :=
        executePendingSeek_miss hpending h.index_eq hseek hlookup hoffset hgo
      have hmid :=
        (h.movedTo offset i).setting (.withReadahead (show blocks.length < 2 ^ 64 by omega))
      rcases (h.movedTo offset i).serveTarget_cases hd rfl skip with ⟨hno, hserve⟩ | ⟨hneeds, hfit,
        hlt, q, hserve⟩ | ⟨-, -, hserve⟩
      · have hserve' := hmid.serveTarget_idle rfl hno skip
        rw [read_of_executePendingSeek (hmiss.trans hserve) rfl hne,
          read_of_executePendingSeek (hmiss'.trans hserve') rfl hne,
          read_eof rfl (Nat.le_refl _) rfl hn, read_eof rfl (Nat.le_refl _) rfl hn]
        exact ⟨rfl, .same _ _⟩
      · have hleft : skip < blocks[i].length := hinside hlt
        obtain ⟨q', hserve'⟩ := hmid.serveTarget_refill hd hneeds
          (show i + max blocks.length 1 < 2 ^ 64 by omega) hlt skip
        rw [read_of_executePendingSeek (hmiss.trans hserve) rfl hne,
          read_of_executePendingSeek (hmiss'.trans hserve') rfl hne,
          read_left rfl (by exact hleft) hn, read_left rfl (by exact hleft) hn]
        refine ⟨rfl, q', ?_⟩
        rw [refilled_all (by exact hlarge) file q q', batchStop_all (by exact hlarge)]
        rfl
      · refine absurd ⟨"attempt to add with overflow", r.movedTo ⟨file, offset, []⟩ i, ?_⟩ hfits
        rw [PgzfReader.read, if_neg hne, bind_error (hmiss.trans hserve)]
  · have hrefused := seekByte_beyond (D := D)
      (show index.totalUncompressed < target by rw [hd.totalUncompressed]; omega)
    rw [PgzfReader.read, if_neg hne,
      bind_error (executePendingSeek_refused hpending h.index_eq hrefused),
      bind_error (executePendingSeek_refused (r := r.withReadahead blocks.length) hpending
        h.index_eq hrefused)]
    exact ⟨rfl, .same _ _⟩

theorem OnFile.read_all (hd : Describes D file index blocks) (h : OnFile file index blocks r)
    (hcount : blocks.length < 2 ^ 63) (hlarge : blocks.length ≤ r.readaheadSize) {n : Nat}
    (hfits : ¬ Panics (PgzfReader.read n r)) :
    Ends (WithReadahead blocks.length) Eq (PgzfReader.read n r)
      (PgzfReader.read n (r.withReadahead blocks.length)) := by
  rcases Nat.eq_zero_or_pos n with rfl | hn
  · rw [read_zero, read_zero]
    exact ⟨rfl, .same _ _⟩
  cases hpending : r.pendingSeek with
  | none => exact h.read_all_idle hd hcount hlarge hpending hn hfits
  | some target => exact h.read_all_pending hd hcount hlarge hpending hn hfits

/-! ### Seeks -/

theorem OnFile.seekToBlock_panics_iff (hd : Describes D file index blocks)
    (hcount : blocks.length < 2 ^ 63) (h : OnFile file index blocks r) (i : Int) :
    Panics (PgzfReader.seekToBlock i r) ↔ i = -2 ^ 63 := by
  obtain ⟨p, hin⟩ := h.inner
  rw [h.seekToBlock_apply]
  by_cases hi : BlockNumber blocks.length i
  · obtain ⟨offset, hseek⟩ := seekBlock_of_blockNumber hd hcount hi r
    rw [bind_ok hseek, bind_ok (onInner_seekStart hin offset), modify_apply]
    rw [BlockNumber] at hi
    exact iff_of_false not_panics_ok (by omega)
  · by_cases hmin : i = -2 ^ 63
    · subst hmin
      rw [bind_error (seekBlock_min index r)]
      exact iff_of_true ⟨_, r, rfl⟩ rfl
    · obtain ⟨e, herror⟩ := seekBlock_of_not_blockNumber hd hi hmin r
      rw [bind_error herror]
      exact iff_of_false not_panics_error hmin

theorem OnFile.seekFromEnd_panics_iff (h : OnFile file index blocks r) (d : Int) :
    Panics (PgzfReader.seek (.fromEnd d) r) ↔ ¬ I64Fits index.totalUncompressed d := by
  obtain ⟨hnotes, hpanics⟩ := seek_fromEnd h.isPgzf h.index_eq d
  by_cases hfits : I64Fits index.totalUncompressed d
  · rw [hnotes hfits]
    exact iff_of_false not_panics_ok (not_not.mpr hfits)
  · rw [hpanics hfits]
    exact iff_of_true ⟨_, r, rfl⟩ hfits

theorem seekCurrent_panics_iff (r : PgzfReader D) (d : Int) :
    Panics (PgzfReader.seek (.current d) r) ↔ ¬ I64Fits r.currentPos d := by
  obtain ⟨hnotes, hpanics⟩ := seek_current r d
  by_cases hfits : I64Fits r.currentPos d
  · rw [hnotes hfits]
    exact iff_of_false not_panics_ok (not_not.mpr hfits)
  · rw [hpanics hfits]
    exact iff_of_true ⟨_, r, rfl⟩ hfits

/-! ### The calls -/

/-- A call with numbers of the caller's; a readahead is set and a read follows. -/
inductive ArgumentCall where
  | readBlocks (start count : Nat)
  | withReadahead (size n : Nat)
  | setReadaheadSize (size n : Nat)
  | seekToBlock (i : Int)
  | seekFromEnd (d : Int)
  | seekCurrent (d : Int)

/-- The numbers are of the types of the arguments, 64 bits wide. -/
def ArgumentCall.Typed : ArgumentCall → Prop
  | .readBlocks start count => start < 2 ^ 64 ∧ count < 2 ^ 64
  | .withReadahead size n | .setReadaheadSize size n => size < 2 ^ 64 ∧ n < 2 ^ 64
  | .seekToBlock i => -2 ^ 63 ≤ i ∧ i < 2 ^ 63
  | .seekFromEnd d | .seekCurrent d => -2 ^ 63 ≤ d ∧ d < 2 ^ 63

/-- The call does not panic, and a number of blocks above `count` does what `count` does. -/
def StaysInRange (count : Nat) (r : PgzfReader D) : ArgumentCall → Prop
  | .readBlocks start n => ¬ Panics (PgzfReader.readBlocks start n r) ∧
      (count ≤ n → PgzfReader.readBlocks start n r = PgzfReader.readBlocks start count r)
  | .withReadahead size n => ¬ Panics (PgzfReader.read n (r.withReadahead size)) ∧
      (count ≤ size → Ends (WithReadahead count) Eq (PgzfReader.read n (r.withReadahead size))
        (PgzfReader.read n (r.withReadahead count)))
  | .setReadaheadSize size n =>
    ¬ Panics ((PgzfReader.setReadaheadSize size >>= fun _ => PgzfReader.read n) r) ∧
      (count ≤ size → Ends (WithReadahead count) Eq
        ((PgzfReader.setReadaheadSize size >>= fun _ => PgzfReader.read n) r)
        ((PgzfReader.setReadaheadSize count >>= fun _ => PgzfReader.read n) r))
  | .seekToBlock i => ¬ Panics (PgzfReader.seekToBlock i r)
  | .seekFromEnd d => ¬ Panics (PgzfReader.seek (.fromEnd d) r)
  | .seekCurrent d => ¬ Panics (PgzfReader.seek (.current d) r)

/-- When it does, on a file of `count` blocks and `total` bytes of data. -/
def ArgumentsFit (total count : Nat) (r : PgzfReader D) : ArgumentCall → Prop
  | .readBlocks start n => start < count → start + n < 2 ^ 64
  | .withReadahead size n | .setReadaheadSize size n => 0 < n → RefillFits (r.withReadahead size)
  | .seekToBlock i => i ≠ -2 ^ 63
  | .seekFromEnd d => I64Fits total d
  | .seekCurrent d => I64Fits r.currentPos d

theorem OnFile.readahead_staysInRange_iff (hd : Describes D file index blocks)
    (hcount : blocks.length < 2 ^ 63) (h : OnFile file index blocks r) {size : Nat}
    (hsize : size < 2 ^ 64) (n : Nat) :
    StaysInRange blocks.length r (.withReadahead size n) ↔
      (0 < n → RefillFits (r.withReadahead size)) := by
  have hset := h.setting (.withReadahead hsize)
  rw [StaysInRange, hset.read_panics_iff hd, not_and_not_right, and_iff_left_iff_imp]
  intro hfits hlarge
  refine hset.read_all hd hcount ?_ ?_
  · simp only [withReadahead]
    omega
  · rw [hset.read_panics_iff hd, not_and_not_right]
    exact hfits

theorem OnFile.staysInRange_iff (hd : Describes D file index blocks)
    (hcount : blocks.length < 2 ^ 63) (h : OnFile file index blocks r) {call : ArgumentCall}
    (htyped : call.Typed) :
    StaysInRange blocks.length r call ↔
      ArgumentsFit blocks.flatten.length blocks.length r call := by
  cases call with
  | readBlocks start count =>
    have hblocks : index.blockCount = blocks.length := hd.blockCount
    rw [StaysInRange, ArgumentsFit, h.readBlocks_panics_iff hd, not_and, Nat.not_le,
      and_iff_left_iff_imp]
    intro hfits hlarge
    have hall := readBlocks_all h.isPgzf h.index_eq (hblocks ▸ hlarge) (hblocks ▸ hfits)
    rwa [hblocks] at hall
  | withReadahead size n => exact h.readahead_staysInRange_iff hd hcount htyped.1 n
  | setReadaheadSize size n => exact h.readahead_staysInRange_iff hd hcount htyped.1 n
  | seekToBlock i =>
    rw [StaysInRange, ArgumentsFit, h.seekToBlock_panics_iff hd hcount]
  | seekFromEnd d =>
    rw [StaysInRange, ArgumentsFit, h.seekFromEnd_panics_iff, not_not, hd.totalUncompressed]
  | seekCurrent d =>
    rw [StaysInRange, ArgumentsFit, seekCurrent_panics_iff, not_not]

open PgzfWriter in
/-- Exactly which arguments keep the sums of a call in
range, in every state of a session on a written file. -/
theorem arguments_stay_in_range_iff {config : PgzfConfig} {calls : List WriteCall}
    (hw : Written D config calls file) {q : Nat} (hreach : Reachable ⟨file, q, []⟩ r)
    {call : ArgumentCall} (htyped : call.Typed) :
    StaysInRange (config.blocksOf (calls.flatMap WriteCall.bytes)).length r call ↔
      ArgumentsFit (calls.flatMap WriteCall.bytes).length
        (config.blocksOf (calls.flatMap WriteCall.bytes)).length r call := by
  obtain ⟨index, raws, hl, hon, hcount⟩ := hreach.written hw
  have hiff := hon.staysInRange_iff hl.described hcount htyped
  rwa [flatten_blocksOf hw.blockSize_pos] at hiff

theorem arguments_stay_in_range_iff_sample :
    StaysInRange 4 Stored.uncachedReader (.readBlocks 1 (2 ^ 64 - 2)) :=
  have htyped : ArgumentCall.Typed (.readBlocks 1 (2 ^ 64 - 2)) := ⟨by decide, by decide⟩
  (arguments_stay_in_range_iff Stored.written_sample Stored.reachable_uncached htyped).mpr
    fun _ => by decide

/-- The largest count behind the first block, the largest readahead behind it, the least block
number and the largest offset from the end all overflow. -/
theorem arguments_overflow :
    Written Stored.deps Stored.sampleConfig Stored.sampleWrites Stored.sampleFile ∧
      Reachable ⟨Stored.sampleFile, 0, []⟩ Stored.uncachedReader ∧
      ¬ StaysInRange 4 Stored.uncachedReader (.readBlocks 1 (2 ^ 64 - 1)) ∧
      (∃ r' : PgzfReader Stored.deps, Reachable ⟨Stored.sampleFile, 0, []⟩ r' ∧
        ¬ StaysInRange 4 r' (.setReadaheadSize (2 ^ 64 - 1) 4)) ∧
      ¬ StaysInRange 4 Stored.uncachedReader (.seekToBlock (-2 ^ 63)) ∧
      ¬ StaysInRange 4 Stored.uncachedReader (.seekFromEnd (2 ^ 63 - 1)) := by
  obtain ⟨index, raws, hl, hon, hcount⟩ := Stored.reachable_uncached.written Stored.written_sample
  refine ⟨Stored.written_sample, Stored.reachable_uncached, fun h => ?_, ?_, fun h => ?_,
    fun h => ?_⟩
  · have htyped : ArgumentCall.Typed (.readBlocks 1 (2 ^ 64 - 1)) := ⟨by decide, by decide⟩
    exact absurd ((hon.staysInRange_iff hl.described hcount htyped).mp h (by decide)) (by decide)
  · obtain ⟨q, hread⟩ :=
      hon.readBlocks_eq hl.described (show 0 < 4 by decide) (show 0 < 1 by decide) (by decide)
    have hreach : Reachable ⟨Stored.sampleFile,
        0, []⟩ (Stored.uncachedReader.restarted ⟨Stored.sampleFile, q, []⟩ 1) :=
      Stored.reachable_uncached.call (.readBlocks 0 1) (by rw [BlockCall.run, bind_ok hread]; rfl)
    refine ⟨_, hreach, fun h => ?_⟩
    have hfront := hon.restarted q 1
    have htyped : ArgumentCall.Typed (.setReadaheadSize (2 ^ 64 - 1) 4) := ⟨by decide, by decide⟩
    have hfits := (hfront.staysInRange_iff hl.described hcount htyped).mp h (by decide)
    have hlt : 1 < index.blockCount := by
      rw [hl.described.blockCount]
      exact show 1 < 4 by decide
    have hstart : refillStart index
        ((Stored.uncachedReader.restarted ⟨Stored.sampleFile, q, []⟩ 1).withReadahead
      (2 ^ 64 - 1)) = some 1 := (refillStart_idle rfl 1).mpr ⟨Nat.le_refl _, rfl, rfl, rfl⟩
    have hunlimited : (Stored.uncachedReader.restarted ⟨Stored.sampleFile, q,
      []⟩ 1).readaheadMemoryLimit = none := rfl
    have hroom := hfits index 1 hfront.index_eq hstart hlt fun limit hlimit =>
      absurd (hunlimited.symm.trans hlimit) (by simp)
    exact absurd (show 1 + (2 ^ 64 - 1) < 2 ^ 64 from hroom) (by decide)
  · have htyped : ArgumentCall.Typed (.seekToBlock (-2 ^ 63)) := ⟨by decide, by decide⟩
    exact absurd rfl ((hon.staysInRange_iff hl.described hcount htyped).mp h)
  · have htyped : ArgumentCall.Typed (.seekFromEnd (2 ^ 63 - 1)) := ⟨by decide, by decide⟩
    exact absurd ((hon.staysInRange_iff hl.described hcount htyped).mp h).2 (by decide)

end Pgzf
