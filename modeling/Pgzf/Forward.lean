import Pgzf.Chain
import Pgzf.Integrity

/-!
# Reading on and on

A reader that is opened, moved once at most, and then only read from, finds nothing in its cache
that it asks for. Whatever the file holds, and whichever operations of its source fail, it takes the
blocks batch by batch: from where the first one is listed, the members that follow each other.
-/

namespace Pgzf

open PgzfReader PgzfIndex Program

variable {D : Deps} {file : Bytes} {index : PgzfIndex} {size : Nat} {faults : List (Option IoError)}

/-! ### Blocks in order -/

/-- The walk takes a place for the end that is one, or where a read fails as there. -/
def EndsUnder (file : Bytes) (faults : List (Option IoError)) (p : Nat) : Prop :=
  EndsAt file p ∨ Cut faults

def Batch (file : Bytes) (index : PgzfIndex) (size : Nat) (faults : List (Option IoError))
    (start : Nat) (places : List Nat) (ending : Ending) : Prop :=
  Chain file (EndsUnder file faults) (listedOffset index start)
    (min index.blockCount (start + size) - start) places ending

variable (D file index size faults) in
/-- From number `start` on these blocks are taken from the file, one batch after the other, all
vouched for; with `true` there are no more of them. -/
inductive Fetched : Nat → List Bytes → Bool → Prop
  | open (start : Nat) : Fetched start [] false
  | behind {start : Nat} : index.blockCount ≤ start → Fetched start [] true
  | dry {start : Nat} : start < index.blockCount → Batch file index size faults start [] .ends →
    Fetched start [] true
  | batch {start : Nat} {places : List Nat} {ending : Ending} {datas later : List Bytes}
    {done : Bool} :
      start < index.blockCount → Batch file index size faults start places ending → ending.Done →
        List.Forall₂ (fun place data => blockAt D file place = some data) places datas →
          (∀ data ∈ datas, Genuine D file data) → datas ≠ [] →
            Fetched (min index.blockCount (start + size)) later done →
              Fetched start (datas ++ later) done

def untilEmpty (blocks : List Bytes) : Bytes :=
  (blocks.takeWhile fun block => !block.isEmpty).flatten

variable (D file index size faults) in
/-- What a reader delivers that holds `left` of one block and the blocks in `queue`, and goes on
with block `next`; with `true` nothing is behind it. -/
def Ahead (left : Bytes) (queue : List Bytes) (next : Nat) (data : Bytes) (ended : Bool) : Prop :=
  ∃ later done, Fetched D file index size faults next later done ∧
    data = left ++ untilEmpty (queue ++ later) ∧ ended = (done || (queue ++ later).any List.isEmpty)

variable {left data : Bytes} {queue : List Bytes} {next n : Nat} {ended : Bool}

theorem untilEmpty_cons {block : Bytes} (h : block ≠ []) (blocks : List Bytes) :
    untilEmpty (block :: blocks) = block ++ untilEmpty blocks := by
  have hfull : (!block.isEmpty) = true := by simpa using h
  rw [untilEmpty, List.takeWhile_cons, if_pos hfull, List.flatten_cons, untilEmpty]

theorem Ahead.take (h : Ahead D file index size faults (left.drop n) queue next data ended) :
    Ahead D file index size faults left queue next (left.take n ++ data) ended := by
  obtain ⟨later, done, hfetched, rfl, hended⟩ := h
  exact ⟨later, done, hfetched, by rw [← List.append_assoc, List.take_append_drop], hended⟩

theorem Ahead.serve {block : Bytes} (hblock : block ≠ [])
    (h : Ahead D file index size faults block queue next data ended) :
    Ahead D file index size faults [] (block :: queue) next data ended := by
  obtain ⟨later, done, hfetched, rfl, hended⟩ := h
  refine ⟨later, done, hfetched, ?_, ?_⟩
  · rw [List.cons_append, untilEmpty_cons hblock, List.nil_append]
  · have hfull : block.isEmpty = false := by simpa using hblock
    rw [hended, List.cons_append, List.any_cons, hfull, Bool.false_or]

theorem ahead_empty (queue : List Bytes) (next : Nat) :
    Ahead D file index size faults [] ([] :: queue) next [] true :=
  ⟨[], false, .open next, rfl, rfl⟩

theorem Ahead.refill {places : List Nat} {ending : Ending} {datas : List Bytes}
    (hlt : next < index.blockCount) (hbatch : Batch file index size faults next places ending)
    (hdone : ending.Done)
    (hdatas : List.Forall₂ (fun place data => blockAt D file place = some data) places datas)
    (hgenuine : ∀ data ∈ datas, Genuine D file data) (hne : datas ≠ [])
    (h : Ahead D file index size faults [] datas (min index.blockCount (next + size)) data ended) :
    Ahead D file index size faults [] [] next data ended := by
  obtain ⟨later, done, hfetched, rfl, hended⟩ := h
  exact ⟨datas ++ later, done, .batch hlt hbatch hdone hdatas hgenuine hne hfetched, rfl, hended⟩

/-! ### Batches -/

theorem genuine_of_blockAt {place : Nat} {data : Bytes} (hwhole : WholeAt file place)
    (h : blockAt D file place = some data) : Genuine D file data := by
  rw [← hwhole.decompress] at h
  cases hraw : decompressRawBlockWith D ((file.drop place).take (zcAt file place))
      (headerSizeAt file place) with
  | error e =>
    rw [hraw] at h
    exact absurd h (by simp [Except.toOption])
  | ok data' =>
    rw [hraw] at h
    obtain rfl := Option.some.inj h
    exact genuine_of_raw ((List.take_prefix _ _).isInfix.trans (List.drop_suffix _ _).isInfix) hraw

theorem genuine_of_places {places : List Nat} {datas : List Bytes}
    (hwhole : ∀ place ∈ places, WholeAt file place)
    (h : List.Forall₂ (fun place data => blockAt D file place = some data) places datas) :
    ∀ data ∈ datas, Genuine D file data := by
  induction h with
  | nil => exact fun _ hdata => absurd hdata List.not_mem_nil
  | @cons place data places datas hdata _ ih =>
    rw [List.forall_mem_cons] at hwhole ⊢
    exact ⟨genuine_of_blockAt hwhole.1 hdata, ih hwhole.2⟩

theorem numberRaws_cons (first : Nat) (entry : Bytes × Nat) (raws : List (Bytes × Nat)) :
    numberRaws first (entry :: raws) = (first, entry.1, entry.2) :: numberRaws (first + 1) raws :=
  rfl

/-- A range is read along a chain. By induction on the turns. -/
theorem readRange_chain {r : PgzfReader D} (hbytes : r.inner.bytes = file)
    (hfaults : r.inner.faults <:+ faults) (fuel count : Nat) (allRaw : List (Nat × Bytes × Nat)) :
    Post (fun out r' => Walked r r' ∧ ∃ places ending,
      Chain file (EndsUnder file faults) r.inner.pos count places ending ∧
        ending.Done ∧ out.1 = allRaw ++ numberRaws r.nextBlockIndex (places.map (rawEntry file)) ∧
          (count ≠ 0 → places = [] → out.2 = true))
      (fun _ _ => True) (PgzfReader.readRange fuel count allRaw r) := by
  induction fuel generalizing r count allRaw with
  | zero => exact trivial
  | succ fuel ih =>
    rw [PgzfReader.readRange]
    refine Post.ite (fun hzero => ?_) fun hcount => ?_
    · subst hzero
      exact ⟨.refl r, [], .full, .full _, .inl rfl, (List.append_nil allRaw).symm,
        fun hne => absurd rfl hne⟩
    obtain ⟨count, rfl⟩ := Nat.exists_eq_succ_of_ne_zero hcount
    have hread := readOneRawBlock_at r
    rw [hbytes] at hread
    refine Post.bind ((Prog.post_intoIo_state hread).mono (fun _ _ h => h) fun _ _ _ => trivial) ?_
    rintro found mid ⟨hwalked, hfound⟩
    have hbytes' := hwalked.bytes_eq.trans hbytes
    have hfaults' := hwalked.faults_suffix.trans hfaults
    cases found with
    | none =>
      exact ⟨hwalked, [], .ends, .ends count (hfound.imp_right fun hcut => hcut.of_suffix hfaults),
        .inr rfl, (List.append_nil allRaw).symm, fun _ _ => rfl⟩
    | some block =>
      obtain ⟨hwhole, hraw, hsize, hty, hpos, hnext⟩ := hfound
      refine Post.ite (fun hidx => ?_) fun hdata => ?_
      · rw [if_pos hidx] at hnext
        refine (ih hbytes' hfaults' (count + 1) allRaw).mono ?_ fun _ _ h => h
        rintro out r' ⟨hlast, places, ending, hchain, hdone, hout, hend⟩
        rw [hpos] at hchain
        rw [hnext] at hout
        exact ⟨hwalked.trans hlast, places, ending, .idx hwhole (hty ▸ hidx) hchain, hdone,
          hout, hend⟩
      · rw [if_neg hdata] at hnext
        rw [bind_ok (get_apply _)]
        refine (ih hbytes' hfaults' count _).mono ?_ fun _ _ h => h
        rintro out r' ⟨hlast, places, ending, hchain, hdone, hout, -⟩
        rw [hpos] at hchain
        refine ⟨hwalked.trans hlast, r.inner.pos :: places, ending,
          .data hwhole (hty ▸ hdata) hchain, hdone, ?_,
          fun _ hnil => absurd hnil (List.cons_ne_nil _ _)⟩
        rw [hout, hnext, Nat.add_sub_cancel, List.map_cons, numberRaws_cons, List.append_assoc,
          hraw, hsize]
        rfl

theorem readRanges_chain {r : PgzfReader D} (hbytes : r.inner.bytes = file)
    (hfaults : r.inner.faults <:+ faults) {start stop : Nat} (hlt : start < stop) (offset : Nat) :
    Post (fun out r' => Walked r r' ∧ ∃ places ending,
      Chain file (EndsUnder file faults) offset (stop - start) places ending ∧
        ending.Done ∧ out.1 = numberRaws start (places.map (rawEntry file)) ∧
          (places = [] → out.2 = true))
      (fun _ _ => True) (PgzfReader.readRanges [((start, stop), offset)] [] r) := by
  rw [PgzfReader.readRanges]
  refine Post.bind ((Prog.post_intoIo_state (onInner_seekStart_at r offset)).mono (fun _ _ h => h)
    fun _ _ _ => trivial) ?_
  rintro - mid ⟨hmid, hpos⟩
  rw [bind_ok (modify_apply _ _), bind_ok (get_apply _)]
  have hcounted : Walked r { mid with nextBlockIndex := start } :=
    hmid.trans ⟨mid.inner, start, .refl _, rfl⟩
  refine (readRange_chain (hcounted.bytes_eq.trans hbytes) (hcounted.faults_suffix.trans hfaults) _
    _ []).bind ?_
  rintro ⟨raws, ended⟩ last ⟨hlast, places, ending, hchain, hdone, rfl, hend⟩
  have hwalked := hcounted.trans hlast
  have hne : stop - start ≠ 0 := Nat.sub_ne_zero_of_lt hlt
  cases ended with
  | true => exact ⟨hwalked, places, ending, hpos ▸ hchain, hdone, rfl, fun _ => rfl⟩
  | false => exact ⟨hwalked, places, ending, hpos ▸ hchain, hdone, rfl, fun hnil => hend hne hnil⟩

/-- What a batch leaves: its blocks in the queue, and the count behind it. -/
structure Refilled (r : PgzfReader D) (stop : Nat) (datas : List Bytes) (r' : PgzfReader D) :
    Prop where
  later : r.inner.Later r'.inner
  queue_eq : r'.readahead = datas
  next_eq : r'.nextBlockIndex = stop
  ahead : ∀ i, r'.blockCache.lookup i ≠ none → i < stop
  eof_eq : datas ≠ [] → r'.eof = r.eof
  rest : r' = { r with
    inner := r'.inner, readahead := r'.readahead, nextBlockIndex := r'.nextBlockIndex,
    blockCache := r'.blockCache,
    eof := r'.eof }

/-- A batch of which nothing is cached is read along a chain. -/
theorem fetchBatch_chain {r : PgzfReader D} (hbytes : r.inner.bytes = file)
    (hfaults : r.inner.faults <:+ faults) (hempty : r.readahead = []) {start stop : Nat}
    (hlt : start < stop) (hahead : ∀ i, r.blockCache.lookup i ≠ none → i < start) :
    Post (fun _ r' => ∃ places ending datas,
        Chain file (EndsUnder file faults) (listedOffset index start) (stop - start) places ending ∧
          ending.Done ∧
          List.Forall₂ (fun place data => blockAt D file place = some data) places datas ∧
            Refilled r stop datas r')
      (fun _ _ => True) (PgzfReader.fetchBatch index start stop r) := by
  rw [fetchBatch_of_ahead index hlt hahead, fetchMissing]
  simp only [List.map_cons, List.map_nil, List.getLast?_singleton, Option.map_some,
    Option.getD_some]
  refine (readRanges_chain (r := { r with blockCache := lookedUp r.blockCache start stop }) hbytes
    hfaults hlt _).bind ?_
  rintro ⟨allRaw, hitEof⟩ mid ⟨⟨s, count, hlater, rfl⟩, places, ending, hchain, hdone, rfl, -⟩
  have hwhole : ∀ place ∈ places, WholeAt file place :=
    fun place hplace => (hchain.whole place hplace).1
  simp only [decompressAll_numberRaws]
  cases hdatas : (places.map (rawEntry file)).mapM fun entry =>
      decompressRawBlockWith D entry.1 entry.2 with
  | error e => exact trivial
  | ok datas =>
    have hblocks := (mapM_rawEntry_eq_ok hwhole).mp hdatas
    have hcount : datas.length ≤ stop - start := hblocks.length_eq.symm.trans_le hchain.length_le
    rw [bind_ok (show Prog.ofExcept (Except.map (numberDatas start) (.ok datas)) _ =
      .ok (numberDatas start datas) _ from rfl)]
    obtain ⟨cache, hstore, hcached⟩ := storeBlocks_front start datas [] hcount
      { r with inner := s, nextBlockIndex := count, blockCache := lookedUp r.blockCache start stop }
    rw [List.length_nil, Nat.add_zero, List.nil_append] at hstore
    rw [bind_ok hstore]
    refine Post.bind ((Prog.post_intoIo_state (onInner_seekStart_walked _ _)).mono (fun _ _ h => h)
      fun _ _ _ => trivial) ?_
    rintro - _ ⟨t, count', ht, rfl⟩
    rw [bind_ok (modify_apply _ _)]
    obtain ⟨eof, hqueue, heof⟩ :=
      assemble_front index stop datas (stop - start - datas.length) hitEof
        (show { r with inner := t, nextBlockIndex := stop, blockCache := cache }.readahead = []
          from hempty)
    dsimp only
    rw [hqueue]
    refine ⟨places, ending, datas, hchain, hdone, hblocks, hlater.trans ht, rfl, rfl,
      fun i hi => ?_, heof, rfl⟩
    rcases hcached i hi with hlt' | hcached
    · rw [List.length_nil] at hlt'
      omega
    · rw [lookedUp, BlockCache.lookup_cacheLookups, BlockCache.lookup_cacheLookups] at hcached
      exact (hahead i hcached).trans hlt

/-! ### Reads -/

variable (D file index size faults) in
/-- The reader holds `left` of one block and the blocks in `queue`, and has cached nothing from
block `next` on. -/
structure Underway (left : Bytes) (queue : List Bytes) (next : Nat) (r : PgzfReader D) : Prop where
  bytes_eq : r.inner.bytes = file
  faults_suffix : r.inner.faults <:+ faults
  isPgzf_eq : r.isPgzf = true
  index_eq : r.index = some index
  unlimited : r.readaheadMemoryLimit = none
  size_eq : r.readaheadSize = size
  left_eq : r.currentBlock.drop r.currentPos = left
  queue_eq : r.readahead = queue
  next_eq : r.nextBlockIndex = next
  ahead : ∀ i, r.blockCache.lookup i ≠ none → i < next
  pendingSeek_eq : r.pendingSeek = none
  eof_eq : r.eof = false

variable {r r' : PgzfReader D}

/-- A refill brings the next batch into the queue, or
there is none and the reader goes on to the end. -/
theorem Underway.fillReadahead (hsize : 0 < size)
    (h : Underway D file index size faults left [] next r) :
    Post (fun _ r' => (∃ places ending datas, next < index.blockCount ∧
      Batch file index size faults next places ending ∧
          ending.Done ∧ List.Forall₂ (fun place data => blockAt D file place = some data) places
            datas ∧ datas ≠ [] ∧
            Underway D file index size faults left datas (min index.blockCount (next + size)) r') ∨
        Fetched D file index size faults next [] true ∧ r'.readahead = [] ∧
          r'.currentBlock = r.currentBlock ∧
          r'.pendingSeek = r.pendingSeek ∧ r'.inner.faults <:+ faults)
      (fun _ _ => True) (PgzfReader.fillReadahead r) := by
  rw [PgzfReader.fillReadahead, bind_ok (get_apply _)]
  simp only [h.isPgzf_eq, h.queue_eq, h.unlimited, h.index_eq, h.next_eq, h.size_eq, Bool.not_true,
    List.isEmpty_nil, Option.any_none, Bool.false_eq_true, if_false]
  refine Post.ite (fun hbehind => .inr ⟨.behind hbehind, rfl, rfl, rfl, h.faults_suffix⟩)
    fun hlt => ?_
  replace hlt := Nat.not_le.mp hlt
  refine Post.bind (Q := fun limit mid => mid = r ∧ limit = next + size) ?_ ?_
  · rw [addU64]
    exact Post.ite (fun _ => ⟨rfl, rfl⟩) fun _ => trivial
  rintro _ _ ⟨rfl, rfl⟩
  have hstop : next < min index.blockCount (next + size) := by omega
  refine (fetchBatch_chain h.bytes_eq h.faults_suffix h.queue_eq hstop h.ahead).mono ?_ fun _ _ h =>
    h
  rintro - r' ⟨places, ending, datas, hchain, hdone, hblocks, hrefilled⟩
  have hrest := hrefilled.rest
  by_cases hnil : datas = []
  · subst hnil
    obtain rfl : places = [] := List.length_eq_zero_iff.mp hblocks.length_eq
    have hends : ending = .ends := hdone.resolve_left fun hfull => by
      subst hfull
      have hcount := hchain.length_eq
      rw [List.length_nil] at hcount
      omega
    refine .inr ⟨.dry hlt (hends ▸ hchain), hrefilled.queue_eq, ?_, ?_,
      hrefilled.later.faults_suffix.trans h.faults_suffix⟩
    · rw [hrest]
    · rw [hrest]
  · refine .inl ⟨places, ending, datas, hlt, hchain, hdone, hblocks, hnil, ?_⟩
    refine ⟨hrefilled.later.bytes_eq.trans h.bytes_eq,
      hrefilled.later.faults_suffix.trans h.faults_suffix, ?_, ?_, ?_, ?_, ?_,
      hrefilled.queue_eq, hrefilled.next_eq, hrefilled.ahead, ?_,
        (hrefilled.eof_eq hnil).trans h.eof_eq⟩
    · rw [hrest]
      exact h.isPgzf_eq
    · rw [hrest]
      exact h.index_eq
    · rw [hrest]
      exact h.unlimited
    · rw [hrest]
      exact h.size_eq
    · rw [hrest]
      exact h.left_eq
    · rw [hrest]
      exact h.pendingSeek_eq

structure Aimed (file : Bytes) (index : PgzfIndex) (size : Nat) (faults : List (Option IoError))
    (offset : Nat) (r : PgzfReader D) : Prop where
  pendingSeek_eq : r.pendingSeek = some offset
  uncached : ∀ i, r.blockCache.lookup i = none
  underway : Underway D file index size faults [] [] 0 { r with pendingSeek := none }

variable (D file index size faults) in
/-- What is delivered behind a seek: from the block the
index gives, which is there, or there is nothing. -/
inductive SoughtAhead (offset : Nat) : Bytes → Bool → Prop
  | unread : SoughtAhead offset [] false
  | behind {block skip : Nat} : index.seekByte D offset = .ok (block, skip) →
      Fetched D file index size faults block [] true → SoughtAhead offset [] true
  | inside {block skip : Nat} {first : Bytes} {rest : List Bytes} {done : Bool} :
      index.seekByte D offset = .ok (block, skip) →
        Fetched D file index size faults block (first :: rest) done →
        SoughtAhead offset (first.drop skip ++ untilEmpty rest) (done || rest.any List.isEmpty)

variable (D file size faults) in
/-- What may come of a reader: bytes, and whether there is nothing behind them. It is underway, it
is about to be moved, or its file has no marker. -/
inductive Supplies : (Bytes → Bool → Prop) → PgzfReader D → Prop
  | underway {index : PgzfIndex} {left : Bytes} {queue : List Bytes} {next : Nat}
    {r : PgzfReader D} :
      Underway D file index size faults left queue next r →
        Supplies (Ahead D file index size faults left queue next) r
  | aimed {index : PgzfIndex} {offset : Nat} {r : PgzfReader D} :
      Aimed file index size faults offset r →
        Supplies (SoughtAhead D file index size faults offset) r
  | unmarked {s : Source} (threads : Nat) : Unmarked file → s.bytes = file → s.pos = 0 →
    s.faults <:+ faults →
      Supplies (fun data ended => data = [] ∧ (ended = true → Cut faults))
        ((opened D s none).withReadahead threads)

variable {V : Bytes → Bool → Prop}

variable (D file size faults) in
/-- The answer to a read of `n` bytes, and what may come behind it. -/
def Supplied (n : Nat) (V : Bytes → Bool → Prop) (out : Bytes) (r' : PgzfReader D) : Prop :=
  r'.inner.faults <:+ faults ∧ (out = [] ∧ V [] true ∨
    out ≠ [] ∧ out.length ≤ n ∧
      ∃ V', Supplies D file size faults V' r' ∧ ∀ data ended, V' data ended → V (out ++ data) ended)

theorem Supplied.mono {W : Bytes → Bool → Prop} {out : Bytes}
    (h : Supplied D file size faults n V out r') (hVW : ∀ data ended, V data ended → W data ended) :
    Supplied D file size faults n W out r' := by
  refine h.imp_right ?_
  rintro (⟨hout, hend⟩ | ⟨hout, hlen, V', hr', hV'⟩)
  · exact .inl ⟨hout, hVW _ _ hend⟩
  · exact .inr ⟨hout, hlen, V', hr', fun data ended hdata => hVW _ _ (hV' data ended hdata)⟩

theorem Underway.serve {block : Bytes} (hn : 0 < n)
    (h : Underway D file index size faults [] (block :: queue) next r) :
    Supplied D file size faults n (Ahead D file index size faults [] (block :: queue) next)
      (block.take (min block.length n))
      { r with currentBlock := block, currentPos := min block.length n, readahead := queue } := by
  by_cases hnil : block = []
  · subst hnil
    exact ⟨h.faults_suffix, .inl ⟨rfl, ahead_empty queue next⟩⟩
  · have hpos := List.length_pos_iff.mpr hnil
    have hout : block.take (min block.length n) ≠ [] := by
      apply List.ne_nil_of_length_pos
      rw [List.length_take]
      omega
    have hlen : (block.take (min block.length n)).length ≤ n :=
      (List.length_take_le _ _).trans (Nat.min_le_right _ _)
    exact ⟨h.faults_suffix,
      .inr ⟨hout, hlen, _, .underway ⟨h.bytes_eq, h.faults_suffix, h.isPgzf_eq, h.index_eq,
      h.unlimited, h.size_eq, rfl, rfl, h.next_eq, h.ahead, h.pendingSeek_eq, h.eof_eq⟩,
          fun _ _ hdata =>
        hdata.take.serve hnil⟩⟩

theorem Underway.readNextBlock (hsize : 0 < size) (hn : 0 < n)
    (h : Underway D file index size faults [] queue next r) :
    Post (fun out r' => Supplied D file size faults n (Ahead D file index size faults [] queue next)
      out r') (fun _ _ => True)
      (PgzfReader.readNextBlock n r) := by
  rw [PgzfReader.readNextBlock, bind_ok (get_apply _)]
  simp only [h.isPgzf_eq, if_true]
  cases queue with
  | cons block queue =>
    rw [bind_ok (serveNext_cons h.queue_eq n)]
    exact h.serve hn
  | nil =>
    rw [bind_ok (serveNext_nil h.queue_eq n)]
    refine (h.fillReadahead hsize).bind ?_
    rintro - mid (⟨places, ending, datas, hlt, hbatch, hdone, hblocks, hnil, hmid⟩ | ⟨hend, hqueue,
      -, -, hfaults⟩)
    · have hgenuine := genuine_of_places (fun place hplace => (hbatch.whole place hplace).1) hblocks
      obtain ⟨block, rest, rfl⟩ := List.exists_cons_of_ne_nil hnil
      rw [bind_ok (serveNext_cons hmid.queue_eq n)]
      exact (hmid.serve hn).mono fun _ _ hdata =>
        hdata.refill hlt hbatch hdone hblocks hgenuine hnil
    · rw [bind_ok (serveNext_nil hqueue n)]
      exact ⟨hfaults, .inl ⟨rfl, [], true, hend, rfl, rfl⟩⟩

theorem Underway.read (hsize : 0 < size) (hn : 0 < n)
    (h : Underway D file index size faults left queue next r) :
    Post (fun out r' =>
      Supplied D file size faults n (Ahead D file index size faults left queue next) out r')
      (fun _ _ => True) (PgzfReader.read n r) := by
  have hleft := h.left_eq
  rw [PgzfReader.read, if_neg (Nat.ne_of_gt hn), bind_ok (executePendingSeek_none h.pendingSeek_eq),
    bind_ok (get_apply _)]
  refine Post.ite (fun hcurrent => ?_) fun hcurrent => ?_
  · have hlength : (r.currentBlock.drop r.currentPos).length = r.currentBlock.length -
      r.currentPos := List.length_drop
    have hout : (r.currentBlock.drop r.currentPos).take
        (min (r.currentBlock.drop r.currentPos).length n) ≠ [] := by
      apply List.ne_nil_of_length_pos
      rw [List.length_take]
      omega
    have hlen := (List.length_take_le (min (r.currentBlock.drop r.currentPos).length n)
      (r.currentBlock.drop r.currentPos)).trans (Nat.min_le_right _ _)
    refine ⟨h.faults_suffix,
      .inr ⟨hout, hlen, _, .underway ⟨h.bytes_eq, h.faults_suffix, h.isPgzf_eq, h.index_eq,
      h.unlimited, h.size_eq, rfl, h.queue_eq, h.next_eq, h.ahead, h.pendingSeek_eq, h.eof_eq⟩,
        fun data ended hdata => ?_⟩⟩
    rw [← List.drop_drop, hleft] at hdata
    rw [hleft]
    exact hdata.take
  · obtain rfl : left = [] := hleft ▸ List.drop_eq_nil_of_le (Nat.not_lt.mp hcurrent)
    simp only [h.eof_eq, Bool.false_eq_true, if_false]
    exact h.readNextBlock hsize hn

/-- The seek is carried out: the reader stands in the block of its target, or there is none. -/
theorem Aimed.executePendingSeek (hsize : 0 < size) {offset : Nat}
    (h : Aimed file index size faults offset r) :
    Post (fun _ r' => r'.pendingSeek = none ∧
        ((∃ left queue next, Underway D file index size faults left queue next r' ∧ ∀ data ended,
          Ahead D file index size faults left queue next data ended →
            SoughtAhead D file index size faults offset data ended) ∨
            r'.eof = true ∧ r'.currentBlock = [] ∧ r'.inner.faults <:+ faults ∧
              SoughtAhead D file index size faults offset [] true))
      (fun _ _ => True) (PgzfReader.executePendingSeek r) := by
  have hbefore := h.underway
  have hindex : r.index = some index := hbefore.index_eq
  rw [PgzfReader.executePendingSeek, bind_ok (get_apply _)]
  simp only [h.pendingSeek_eq, hindex]
  rw [bind_ok (set_apply _ _)]
  cases hseek : index.seekByte D offset with
  | error e => exact trivial
  | ok found =>
    obtain ⟨block, skip⟩ := found
    have hmissed : (r.blockCache.get block).1 = none := h.uncached block
    simp only
    rw [bind_ok (modify_apply _ _), bind_ok (get_apply _)]
    simp only [hmissed]
    rw [bind_ok (set_apply _ _)]
    cases index.compressedOffset block with
    | none => exact trivial
    | some position =>
      simp only
      refine Post.bind ((onInner_seekStart_walked _ _).mono (fun _ _ h => h) fun _ _ _ =>
        trivial) ?_
      rintro - _ ⟨s, count, hs, rfl⟩
      rw [bind_ok (modify_apply _ _)]
      have hmoved : Underway D file index size faults [] [] block { r with
          inner := s, index := some index, currentBlock := [], currentPos := 0,
          eof := false, pendingSeek := none
          readahead := [], nextBlockIndex := block, blockCache := (r.blockCache.get block).2 } := by
        refine ⟨hs.bytes_eq.trans hbefore.bytes_eq, hs.faults_suffix.trans hbefore.faults_suffix,
          hbefore.isPgzf_eq, rfl,
          hbefore.unlimited, hbefore.size_eq, rfl, rfl, rfl, fun i hi => ?_, rfl, rfl⟩
        rw [BlockCache.lookup_get] at hi
        exact absurd (h.uncached i) hi
      refine (hmoved.fillReadahead hsize).bind ?_
      rintro - mid (⟨places, ending, datas, hlt, hbatch, hdone, hblocks, hnil, hmid⟩ | ⟨hend,
        hqueue, hcurrent, hpending, hfaults⟩)
      all_goals rw [bind_ok (get_apply _)]
      · have hgenuine :=
          genuine_of_places (fun place hplace => (hbatch.whole place hplace).1) hblocks
        obtain ⟨first, rest, rfl⟩ := List.exists_cons_of_ne_nil hnil
        simp only [hmid.queue_eq]
        refine ⟨hmid.pendingSeek_eq, .inl ⟨first.drop skip, rest, _,
          ⟨hmid.bytes_eq, hmid.faults_suffix, hmid.isPgzf_eq,
          hmid.index_eq, hmid.unlimited, hmid.size_eq, rfl, rfl, hmid.next_eq, hmid.ahead,
            hmid.pendingSeek_eq, hmid.eof_eq⟩,
          ?_⟩⟩
        rintro _ _ ⟨later, done, hfetched, rfl, rfl⟩
        exact .inside hseek (.batch hlt hbatch hdone hblocks hgenuine hnil hfetched)
      · simp only [hqueue]
        exact ⟨hpending, .inr ⟨rfl, hcurrent, hfaults, .behind hseek hend⟩⟩

theorem Aimed.read (hsize : 0 < size) (hn : 0 < n) {offset : Nat}
    (h : Aimed file index size faults offset r) :
    Post (fun out r' => Supplied D file size faults n (SoughtAhead D file index size faults offset)
      out r') (fun _ _ => True)
      (PgzfReader.read n r) := by
  have hmoved := h.executePendingSeek hsize
  cases hseek : PgzfReader.executePendingSeek r with
  | error fault r' =>
    rw [PgzfReader.read, if_neg (Nat.ne_of_gt hn), bind_error hseek]
    exact trivial
  | ok u r' =>
    rw [hseek] at hmoved
    obtain ⟨hnone, ⟨left, queue, next, hforward, hahead⟩ | ⟨heof, hcurrent, hfaults, hend⟩⟩ :=
      hmoved
    · rw [read_of_executePendingSeek hseek hnone (Nat.ne_of_gt hn)]
      exact (hforward.read hsize hn).mono (fun _ _ h' => h'.mono hahead) fun _ _ h' => h'
    · rw [PgzfReader.read, if_neg (Nat.ne_of_gt hn), bind_ok hseek, bind_ok (get_apply _)]
      simp only [hcurrent, heof, List.length_nil, Nat.not_lt_zero, if_true, if_false]
      exact ⟨hfaults, .inl ⟨rfl, hend⟩⟩

/-! ### Files without the marker -/

/-- A member without the marker is not read; a read may be cut off in front of it. -/
theorem readPgzfBlock_unmarked (h : Unmarked file) {s : Source} (hbytes : s.bytes = file)
    (hpos : s.pos = 0) :
    Post (fun found s' => found = none ∧ Cut s.faults ∧ s.Later s') (fun _ _ => True)
      (readPgzfBlock D s) := by
  obtain ⟨hroom, flg, xfl, hheader, hmarker⟩ := h
  rw [readPgzfBlock]
  have hread := readExact_at s gzipFixedHeaderSize
  rw [hbytes, hpos, List.drop_zero, Nat.sub_zero] at hread
  refine Post.bind (Q := fun found mid => s.Later mid ∧
    (found = .ok (file.take gzipFixedHeaderSize) ∨
    ∃ e, found = .error (.io e) ∧ some e ∈ s.faults)) ?_ ?_
  · refine (Prog.post_attempt hread (fun _ _ h => ⟨h.1, .inl (congrArg _ h.2.2.1)⟩) ?_).mono
        (fun _ _ h => h) fun _ _ _ =>
      trivial
    rintro e mid ⟨hmid, hshort | ⟨e', he, hmem⟩⟩
    · exact absurd hroom (Nat.not_le.mpr hshort)
    · exact ⟨hmid, .inr ⟨e', congrArg _ (Fault.error.inj he), hmem⟩⟩
  rintro _ mid ⟨hmid, rfl | ⟨e, rfl, hmem⟩⟩
  case inr => exact Post.ite (fun heof => ⟨rfl, ⟨e, hmem, heof⟩, hmid⟩) fun _ => trivial
  case inl =>
    simp only [hheader]
    rw [bind_ok (Prog.ofExcept_ok _ _)]
    have hchunk : ∀ n (s : Source),
        Post (fun _ _ => True) (fun _ _ => True) (Source.readExact n s) := fun n s =>
      (readExact_later s n).mono (fun _ _ _ => trivial) fun _ _ _ => trivial
    simp only [hmarker]
    refine (hchunk 2 mid).bind fun xlenBuf s₁ _ => (hchunk _ s₁).bind fun extra s₂ _ => ?_
    -- the sub-fields are not searched, so there is no `ZC`
    have hfield : parseExtraField (xlenBuf ++ extra) false = .ok ⟨0, none, none⟩ ∨
        ∃ e, parseExtraField (xlenBuf ++ extra) false = .error e := by
      rw [parseExtraField]
      by_cases hshort : (xlenBuf ++ extra).length < 2
      · exact .inr ⟨_, if_pos hshort⟩
      · rw [if_neg hshort]
        by_cases hcut : (xlenBuf ++ extra).length < 2 + (readU16Le (xlenBuf ++ extra)).toNat
        · exact .inr ⟨_, if_pos hcut⟩
        · exact .inl (if_neg hcut)
    rcases hfield with hfield | ⟨e, hfield⟩
    · rw [hfield, bind_ok (Prog.ofExcept_ok _ _)]
      exact Post.ite (fun _ => trivial) fun hroom =>
        absurd (show (0 : UInt32).toNat < datHeaderSize + pgzfTailSize by decide) hroom
    · rw [hfield]
      exact trivial

theorem read_unmarked (hn : 0 < n) (h : Unmarked file) {s : Source} (hbytes : s.bytes = file)
    (hpos : s.pos = 0) (hfaults : s.faults <:+ faults) (threads : Nat) :
    Post (fun out r' => out = [] ∧ Cut faults ∧ r'.inner.faults <:+ faults) (fun _ _ => True)
      (PgzfReader.read n ((opened D s none).withReadahead threads)) := by
  have hblock : Post (fun found mid => found = none ∧ Cut s.faults ∧ s.Later mid.inner)
      (fun _ _ => True) (onInner (readPgzfBlock D) ((opened D s none).withReadahead threads)) :=
    (readPgzfBlock_unmarked h hbytes hpos).onPart (fun _ _ h => h) fun _ _ h => h
  rw [PgzfReader.read, if_neg (Nat.ne_of_gt hn), bind_ok (executePendingSeek_none rfl),
    bind_ok (get_apply _)]
  refine Post.ite (fun hcurrent => absurd hcurrent (Nat.not_lt_zero _)) fun _ =>
    Post.ite (fun heof => absurd heof Bool.false_ne_true) fun _ => ?_
  rw [PgzfReader.readNextBlock, bind_ok (get_apply _)]
  refine Post.ite (fun hmarker => absurd hmarker Bool.false_ne_true) fun _ => ?_
  refine Post.bind (Q := fun _ mid => mid.eof = true ∧ Cut faults ∧
    mid.inner.faults <:+ faults) ?_ ?_
  · rw [advanceToNextBlockSequential, bind_ok (get_apply _), advanceSequentialLoop]
    refine Post.bind ((Prog.post_intoIo_state hblock).mono (fun _ _ h => h) fun _ _ _ => trivial) ?_
    rintro _ mid ⟨rfl, hcut, hmid⟩
    exact ⟨rfl, hcut.of_suffix hfaults, hmid.faults_suffix.trans hfaults⟩
  rintro - mid ⟨heof, hcut, hmid⟩
  rw [bind_ok (get_apply _), heof, Bool.or_true]
  exact ⟨rfl, hcut, hmid⟩

/-! ### Any reader -/

theorem Supplies.read (hsize : 0 < size) (hn : 0 < n) (h : Supplies D file size faults V r) :
    Post (fun out r' => Supplied D file size faults n V out r') (fun _ _ => True)
      (PgzfReader.read n r) := by
  cases h with
  | underway h => exact h.read hsize hn
  | aimed h => exact h.read hsize hn
  | unmarked threads h hbytes hpos hfaults =>
    exact (read_unmarked hn h hbytes hpos hfaults threads).mono (fun _ _ h' =>
      ⟨h'.2.2, .inl ⟨h'.1, rfl, fun _ => h'.2.1⟩⟩) fun _ _ _ => trivial

theorem Supplies.faults_suffix (h : Supplies D file size faults V r) :
    r.inner.faults <:+ faults := by
  cases h with
  | underway h => exact h.faults_suffix
  | aimed h => exact h.underway.faults_suffix
  | unmarked _ _ _ _ hfaults => exact hfaults

theorem Supplies.resumed (h : Supplies D file size faults V r) {faults' : List (Option IoError)}
    (hfaults : faults' <:+ faults) :
    Supplies D file size faults V { r with inner := ⟨file, r.inner.pos, faults'⟩ } := by
  cases h with
  | underway h =>
    exact .underway ⟨rfl, hfaults, h.isPgzf_eq, h.index_eq, h.unlimited, h.size_eq, h.left_eq,
      h.queue_eq, h.next_eq, h.ahead, h.pendingSeek_eq, h.eof_eq⟩
  | aimed h =>
    have hbefore := h.underway
    exact .aimed ⟨h.pendingSeek_eq, h.uncached, rfl, hfaults, hbefore.isPgzf_eq, hbefore.index_eq,
      hbefore.unlimited,
      hbefore.size_eq, hbefore.left_eq, hbefore.queue_eq, hbefore.next_eq, hbefore.ahead, rfl,
        hbefore.eof_eq⟩
  | @unmarked s threads h hbytes hpos _ =>
    exact .unmarked (s := ⟨file, s.pos, faults'⟩) threads h rfl hpos hfaults

/-! ### Opening -/

/-- The index a reader finds in the file, while the
operations fail as they may; none without the marker. -/
def Indexed (D : Deps) (file : Bytes) (faults : List (Option IoError)) (index : Option PgzfIndex) :
    Prop :=
  ∃ faults' s, faults' <:+ faults ∧ PgzfReader.new D ⟨file, 0, faults'⟩ = .ok (opened D s index) s

/-- What may come of a file that is opened, from its
front or from byte `seekByte` of its data on. -/
def Readout (D : Deps) (file : Bytes) (size : Nat) (faults : List (Option IoError))
    (seekByte : Option Nat) (data : Bytes) (ended : Bool) : Prop :=
  ∃ index, Indexed D file faults index ∧ match index, seekByte with
    | some index, none => Ahead D file index size faults [] [] 0 data ended
    | some index, some offset => SoughtAhead D file index size faults offset data ended
    | none, _ => data = [] ∧ (ended = true → Cut faults)

variable {s : Source} {seekByte : Option Nat} (threads : Nat)

end Pgzf
