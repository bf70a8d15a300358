import Pgzf.Sequential

/-!
# Batches of any file

The reader on a file that nothing is known about. `batchAt` is the data of the members that follow
each other from an offset, stated without the state of the reader. One refill puts the batch at the
listed offset of the next block into the queue, or fails as the batch does.
-/

namespace Pgzf

open PgzfReader PgzfIndex

variable {D : Deps} {file : Bytes} {index : PgzfIndex}

/-- A fault behind the `?` that turns an error into a `std::io::Error`. -/
def Fault.toIo : Fault → Fault
  | .error e => .error (.io e.toIo)
  | fault => fault

theorem Prog.intoIo_error {σ α : Type} {m : Prog σ α} {s s' : σ} {fault : Fault}
    (h : m s = .error fault s') :
    Prog.intoIo m s = .error fault.toIo s' := by
  rw [Prog.intoIo, h]
  cases fault <;> rfl

/-! ### Batches -/

/-- Up to `count` data members that follow each other from `p`, with the sizes of their headers;
index members are passed over. -/
def chainAt (file : Bytes) : Nat → Nat → Nat → Except Fault (List (Bytes × Nat))
  | 0, _, _ => .error .diverges
  | fuel + 1, p, count =>
    if count = 0 then
      .ok []
    else
      match memberAt file p with
      | .error fault => .error fault.toIo
      | .ok none => .ok []
      | .ok (some (raw, headerSize, ty)) =>
        if ty = .idx then chainAt file fuel (p + raw.length) count
        else (chainAt file fuel (p + raw.length) (count - 1)).map ((raw, headerSize) :: ·)

variable (D) in
/-- The data of up to `count` members from `p` on. -/
def batchAt (file : Bytes) (p count : Nat) : Except Fault (List Bytes) :=
  match chainAt file (file.length + 1) p count with
  | .error fault => .error fault
  | .ok raws =>
    match raws.mapM fun (raw, headerSize) => decompressRawBlockWith D raw headerSize with
    | .error e => .error (.error e)
    | .ok datas => .ok datas

def numberRaws (first : Nat) (raws : List (Bytes × Nat)) : List (Nat × Bytes × Nat) :=
  (raws.zipIdx first).map fun x => (x.2, x.1.1, x.1.2)

def numberDatas (first : Nat) (datas : List Bytes) : List (Nat × Bytes) :=
  (datas.zipIdx first).map fun x => (x.2, x.1)

/-- A range is read as the members that follow each other. -/
theorem readRange_eq {r : PgzfReader D} {p : Nat} (hin : r.inner = ⟨file, p, []⟩) (fuel count : Nat)
    (allRaw : List (Nat × Bytes × Nat)) :
    match chainAt file fuel p count with
    | .ok raws => ∃ q next hitEof, raws.length ≤ count ∧
      readRange fuel count allRaw r = .ok (allRaw ++ numberRaws r.nextBlockIndex raws,
          hitEof) { r with
        inner := ⟨file, q, []⟩
        nextBlockIndex := next }
    | .error fault => ∃ r', readRange fuel count allRaw r = .error fault r' := by
  induction fuel generalizing r p count allRaw with
  | zero => exact ⟨r, rfl⟩
  | succ fuel ih =>
    rw [chainAt]
    by_cases hzero : count = 0
    · rw [if_pos hzero]
      refine ⟨p, r.nextBlockIndex, false, Nat.zero_le _, ?_⟩
      rw [readRange, if_pos hzero, Program.pure_apply, numberRaws, List.zipIdx_nil, List.map_nil,
        List.append_nil, ← hin]
    · rw [if_neg hzero]
      have hmember := readOneRawBlock_eq hin
      cases hat : memberAt file p with
      | error fault =>
        rw [hat] at hmember
        obtain ⟨q, next, hread⟩ := hmember
        refine ⟨{ r with inner := ⟨file, q, []⟩, nextBlockIndex := next }, ?_⟩
        rw [readRange, if_neg hzero, Program.bind_error (Prog.intoIo_error hread)]
      | ok found =>
        rw [hat] at hmember
        cases found with
        | none =>
          obtain ⟨q, next, hread⟩ := hmember
          refine ⟨q, next, true, Nat.zero_le _, ?_⟩
          rw [readRange, if_neg hzero, Program.bind_ok (Prog.intoIo_ok hread)]
          simp only [Program.pure_apply, numberRaws, List.zipIdx_nil, List.map_nil, List.append_nil]
        | some member =>
          obtain ⟨raw, headerSize, ty⟩ := member
          simp only at hmember
          by_cases hidx : ty = .idx
          · simp only [hidx, if_true] at hmember ⊢
            have hrest := ih (r := { r with inner := ⟨file, p + raw.length, []⟩ }) rfl count allRaw
            have hstep : readRange (fuel + 1) count allRaw r =
                readRange fuel count allRaw { r with inner := ⟨file, p + raw.length, []⟩ } := by
              rw [readRange, if_neg hzero, Program.bind_ok (Prog.intoIo_ok hmember)]
              simp only [if_true]
            rw [hstep]
            exact hrest
          · simp only [hidx, if_false] at hmember ⊢
            have hrest := ih (r := { r with
                inner := ⟨file, p + raw.length, []⟩, nextBlockIndex := r.nextBlockIndex + 1 })
              rfl (count - 1) (allRaw ++ [(r.nextBlockIndex, raw, headerSize)])
            have hstep : readRange (fuel + 1) count allRaw r =
                readRange fuel (count - 1) (allRaw ++ [(r.nextBlockIndex, raw, headerSize)])
                  { r with
                    inner := ⟨file, p + raw.length, []⟩
                    nextBlockIndex := r.nextBlockIndex + 1 } := by
              rw [readRange, if_neg hzero, Program.bind_ok (Prog.intoIo_ok hmember)]
              simp only [hidx, if_false]
              rw [Program.bind_ok (Program.get_apply _)]
              simp only [Nat.add_sub_cancel]
            rw [hstep]
            cases hchain : chainAt file fuel (p + raw.length) (count - 1) with
            | error fault =>
              rw [hchain] at hrest
              exact hrest
            | ok raws =>
              rw [hchain] at hrest
              obtain ⟨q, next, hitEof, hlen, hrun⟩ := hrest
              refine ⟨q, next, hitEof, by rw [List.length_cons]; omega, ?_⟩
              rw [hrun, List.append_assoc]
              rfl

/-- Of the members of a batch, all are decompressed, or the first failure is reported. -/
theorem decompressAll_numberRaws (first : Nat) (raws : List (Bytes × Nat)) :
    decompressAll D (numberRaws first raws) =
      (raws.mapM fun (raw, headerSize) => decompressRawBlockWith D raw headerSize).map
        (numberDatas first) := by
  induction raws generalizing first with
  | nil => rfl
  | cons member raws ih =>
    obtain ⟨raw, headerSize⟩ := member
    have hrest := ih (first + 1)
    rw [decompressAll] at hrest
    rw [decompressAll, numberRaws, List.zipIdx_cons, List.map_cons, List.mapM_cons, List.mapM_cons,
      ← numberRaws, hrest]
    simp only
    cases decompressRawBlockWith D raw headerSize with
    | error e => rfl
    | ok data =>
      cases raws.mapM fun (raw, headerSize) => decompressRawBlockWith D raw headerSize with
      | error e => rfl
      | ok datas => rfl

/-- The blocks of a batch fill the places of the batch from the front. -/
theorem storeBlocks_front (start : Nat) (datas : List Bytes) (done : List (Option Bytes))
    {room : Nat} (hroom : datas.length ≤ room) (r : PgzfReader D) :
    ∃ cache, storeBlocks start (numberDatas (start + done.length) datas)
      (done ++ List.replicate room none) r =
        .ok (done ++ datas.map some ++ List.replicate (room - datas.length) none)
          { r with blockCache := cache } ∧
      ∀ i, cache.lookup i ≠ none → i < start + done.length + datas.length ∨
        r.blockCache.lookup i ≠ none := by
  induction datas generalizing done room r with
  | nil =>
    refine ⟨r.blockCache, ?_, fun i hi => .inr hi⟩
    rw [numberDatas, List.zipIdx_nil, List.map_nil, storeBlocks, Program.pure_apply, List.map_nil,
      List.append_nil, List.length_nil, Nat.sub_zero]
  | cons data datas ih =>
    rw [List.length_cons] at hroom
    obtain ⟨room, rfl⟩ : ∃ m, room = m + 1 := ⟨room - 1, by omega⟩
    have hplace : ¬ (start + done.length < start ∨
        (done ++ List.replicate (room + 1) none).length ≤ start + done.length - start) := by
      rw [List.length_append, List.length_replicate]
      omega
    have hset : (done ++ List.replicate (room + 1) (none : Option Bytes)).set
        (start + done.length - start) (some data) =
        done ++ [some data] ++ List.replicate room none := by
      rw [Nat.add_sub_cancel_left, List.set_append_right _ _ (Nat.le_refl _), Nat.sub_self,
        List.replicate_succ, List.set_cons_zero, List.append_assoc]
      rfl
    obtain ⟨cache, hrun, hcached⟩ := ih (done ++ [some data]) (show datas.length ≤ room by omega)
      { r with blockCache := r.blockCache.insert (start + done.length) data }
    rw [List.length_append, List.length_singleton, ← Nat.add_assoc] at hrun hcached
    refine ⟨cache, ?_, ?_⟩
    · rw [numberDatas, List.zipIdx_cons, List.map_cons, storeBlocks,
        Program.bind_ok (Program.modify_apply _ _),
        if_neg hplace, hset, ← numberDatas, hrun, List.length_cons, Nat.add_sub_add_right,
          List.map_cons,
        List.append_assoc done [some data]]
      rfl
    · intro i hi
      rw [List.length_cons]
      rcases hcached i hi with hlt | hne
      · exact .inl (by omega)
      · rcases BlockCache.lookup_insert_ne_none hne with rfl | hne
        · exact .inl (by omega)
        · exact .inr hne

theorem groupContiguousLoop_range' (start prev n : Nat) :
    groupContiguousLoop (List.range' (prev + 1) n) start prev = [(start, prev + 1 + n)] := by
  induction n generalizing prev with
  | zero => rfl
  | succ n ih =>
    rw [List.range'_succ, groupContiguousLoop, if_pos rfl, ih,
      show prev + 1 + 1 + n = prev + 1 + (n + 1) by omega]

theorem groupContiguous_range' {start n : Nat} (hn : 0 < n) :
    groupContiguous (List.range' start n) = [(start, start + n)] := by
  obtain ⟨n, rfl⟩ : ∃ m, n = m + 1 := ⟨n - 1, by omega⟩
  rw [List.range'_succ, groupContiguous, groupContiguousLoop_range',
    show start + 1 + n = start + (n + 1) by omega]

theorem filterMap_front (datas : List Bytes) (n : Nat) :
    (datas.map some ++ List.replicate n none).filterMap id = datas := by
  induction datas with
  | nil => simp
  | cons data datas ih => exact congrArg (data :: ·) ih

theorem readRanges_single {r : PgzfReader D} {p : Nat} (hin : r.inner = ⟨file, p, []⟩)
    (start stop offset : Nat) :
    match chainAt file (file.length + 1) offset (stop - start) with
    | .ok raws => ∃ q next hitEof, raws.length ≤ stop - start ∧
      readRanges [((start, stop), offset)] [] r = .ok (numberRaws start raws, hitEof) { r with
        inner := ⟨file, q, []⟩
        nextBlockIndex := next }
    | .error fault => ∃ r', readRanges [((start, stop), offset)] [] r = .error fault r' := by
  have hrange := readRange_eq (r := { r with inner := ⟨file, offset, []⟩, nextBlockIndex := start })
    rfl (file.length + 1) (stop - start) []
  have hfront : readRanges [((start, stop), offset)] [] r =
      (readRange (file.length + 1) (stop - start) [] >>= fun read =>
      if read.2 = true then pure (read.1, true) else pure (read.1, false))
        { r with inner := ⟨file, offset, []⟩, nextBlockIndex := start } := by
    simp only [readRanges]
    rw [Program.bind_ok (Prog.intoIo_ok (onInner_seekStart hin offset)),
      Program.bind_ok (Program.modify_apply _ _), Program.bind_ok (Program.get_apply _)]
  rw [hfront]
  cases hchain : chainAt file (file.length + 1) offset (stop - start) with
  | error fault =>
    rw [hchain] at hrange
    obtain ⟨r', hrun⟩ := hrange
    exact ⟨r', Program.bind_error hrun⟩
  | ok raws =>
    rw [hchain] at hrange
    obtain ⟨q, next, hitEof, hlen, hrun⟩ := hrange
    refine ⟨q, next, hitEof, hlen, ?_⟩
    rw [Program.bind_ok hrun, List.nil_append]
    cases hitEof <;> rfl

theorem length_of_mapM_ok {α β ε : Type} {f : α → Except ε β} {xs : List α} {ys : List β}
    (h : xs.mapM f = .ok ys) :
    ys.length = xs.length :=
  (Program.mapM_except_eq_ok.mp h).length_eq.symm

variable (index) in
theorem assemble_front (stop : Nat) (datas : List Bytes) (absent : Nat) (hitEof : Bool)
    {r : PgzfReader D} (hempty : r.readahead = []) :
    ∃ eof, assemble index stop ([] ++ datas.map some ++ List.replicate absent none) hitEof r =
      .ok () { r with readahead := datas, eof := eof } ∧ (datas ≠ [] → eof = r.eof) := by
  rw [assemble, Program.bind_ok (Program.modify_apply _ _), Program.bind_ok (Program.get_apply _)]
  simp only [hempty, List.nil_append, filterMap_front]
  split
  · rename_i hnothing
    refine ⟨true, rfl, fun hne => absurd ?_ hne⟩
    simpa using (Bool.and_eq_true_iff.mp hnothing).1
  · exact ⟨r.eof, rfl, fun _ => rfl⟩

variable (index) in
/-- Of a batch in front of which the cache ends, all is missing. -/
theorem fetchBatch_of_ahead {r : PgzfReader D} {start stop : Nat} (hlt : start < stop)
    (hahead : ∀ i, r.blockCache.lookup i ≠ none → i < start) :
    fetchBatch index start stop r = fetchMissing index start stop [(start, stop)]
      (List.replicate (stop - start) none)
      { r with blockCache := lookedUp r.blockCache start stop } := by
  have habsent : ∀ i, start ≤ i → r.blockCache.lookup i = none := by
    intro i hi
    by_contra hcached
    exact absurd (hahead i hcached) (Nat.not_lt.mpr hi)
  have hnone : (List.range' start (stop - start)).map r.blockCache.lookup =
      List.replicate (stop - start) none := by
    rw [List.eq_replicate_iff]
    refine ⟨by rw [List.length_map, List.length_range'], ?_⟩
    intro found hfound
    obtain ⟨i, hi, rfl⟩ := List.mem_map.mp hfound
    exact habsent i (List.mem_range'_1.mp hi).1
  have hranges : groupContiguous (List.range' start (stop - start)) = [(start, stop)] := by
    rw [groupContiguous_range' (by omega), show start + (stop - start) = stop by omega]
  have hmissing := missing_of_ahead habsent stop
  have hne : missing r.blockCache start stop ≠ [] := by
    rw [hmissing, ne_eq, List.range'_eq_nil_iff]
    omega
  rw [fetchBatch_apply, if_neg hne, hmissing, hranges, hnone]

variable (index) in
/-- A batch of which nothing is cached is read from the
file; what is missing of it is left out of the queue. -/
theorem fetchBatch_ahead {r : PgzfReader D} {p start stop : Nat} (hin : r.inner = ⟨file, p, []⟩)
    (hlt : start < stop) (hempty : r.readahead = [])
    (hahead : ∀ i, r.blockCache.lookup i ≠ none → i < start) :
    match batchAt D file ((index.compressedOffset start).getD 0) (stop - start) with
    | .ok datas => ∃ q cache eof, fetchBatch index start stop r = .ok () { r with
        inner := ⟨file, q, []⟩, readahead := datas, nextBlockIndex := stop,
        blockCache := cache, eof := eof } ∧
      (datas ≠ [] → eof = r.eof) ∧ ∀ i, cache.lookup i ≠ none → i < stop
    | .error fault => ∃ r', fetchBatch index start stop r = .error fault r' := by
  rw [fetchBatch_of_ahead index hlt hahead, fetchMissing, batchAt]
  simp only [List.map_cons, List.map_nil, List.getLast?_singleton, Option.map_some,
    Option.getD_some]
  have hread := readRanges_single (r := { r with blockCache := lookedUp r.blockCache start stop })
    hin start stop ((index.compressedOffset start).getD 0)
  cases hchain : chainAt file (file.length + 1) ((index.compressedOffset start).getD 0)
      (stop - start) with
  | error fault =>
    rw [hchain] at hread
    obtain ⟨r', hrun⟩ := hread
    exact ⟨r', Program.bind_error hrun⟩
  | ok raws =>
    rw [hchain] at hread
    obtain ⟨q, next, hitEof, hlen, hrun⟩ := hread
    simp only
    have hall := decompressAll_numberRaws (D := D) start raws
    cases hdatas : raws.mapM fun (raw, headerSize) => decompressRawBlockWith D raw headerSize with
    | error e =>
      rw [hdatas] at hall
      rw [Program.bind_ok hrun]
      simp only [hall, Except.map]
      exact ⟨_, Program.bind_error (Prog.ofExcept_error _ _)⟩
    | ok datas =>
      rw [hdatas] at hall
      have hcount : datas.length = raws.length := length_of_mapM_ok hdatas
      obtain ⟨cache, hstore, hcached⟩ := storeBlocks_front start datas []
        (show datas.length ≤ stop - start by omega) { r with
          inner := ⟨file, q, []⟩
          nextBlockIndex := next
          blockCache := lookedUp r.blockCache start stop }
      rw [List.length_nil, Nat.add_zero, List.nil_append] at hstore
      obtain ⟨eof, hqueue, heof⟩ :=
        assemble_front index stop datas (stop - start - datas.length) hitEof (show { r with
          inner := ⟨file, (index.compressedOffset stop).getD index.totalCompressed, []⟩
          nextBlockIndex := stop
          blockCache := cache }.readahead = [] from hempty)
      refine ⟨(index.compressedOffset stop).getD index.totalCompressed, cache, eof, ?_, heof, ?_⟩
      · rw [Program.bind_ok hrun]
        simp only [hall, Except.map]
        rw [Program.bind_ok (Prog.ofExcept_ok _ _), Program.bind_ok hstore,
          Program.bind_ok
            (Prog.intoIo_ok (onInner_seekStart (show _ = (⟨file, q, []⟩ : Source) from rfl) _)),
          Program.bind_ok (Program.modify_apply _ _)]
        exact hqueue
      · intro i hi
        rcases hcached i hi with hlt' | hne
        · rw [List.length_nil] at hlt'
          omega
        · rw [lookedUp, BlockCache.lookup_cacheLookups, BlockCache.lookup_cacheLookups] at hne
          have := hahead i hne
          omega

end Pgzf
