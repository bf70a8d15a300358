import Pgzf.Library.Relational
import Pgzf.Tracks

/-!
# Two readers side by side

The answer of a read does not depend on everything in a reader. Here are two readers that differ in
their source and in their cache alone. As long as the operations of the two sources end alike, and
the caches hold the same blocks until a refill adds to them, the two read the same.
-/

namespace Pgzf

open PgzfReader Program

variable {D : Deps}

/-- Two sources of the same bytes whose operations end
alike, but for the I/O errors `F` of the first. -/
structure SourcePair (Q : Source → Source → Prop) (F : Fault → Prop) : Prop where
  bytes_eq : ∀ {s t}, Q s t → t.bytes = s.bytes
  seekStart : ∀ {s t}, Q s t →
    ∀ offset, EndsUnless F Q Eq (Source.seekStart offset s) (Source.seekStart offset t)
  readExact : ∀ {s t}, Q s t → ∀ n, EndsUnless F Q Eq (Source.readExact n s) (Source.readExact n t)
  isIo : ∀ {fault}, F fault → ∃ e, fault = .error (.io e) ∧ e.kind ≠ .unexpectedEof

/-- Two caches with the same blocks in them; `C₁` is what an insertion leaves of it. -/
structure CachePair (C₀ C₁ : BlockCache D → BlockCache D → Prop) : Prop where
  lookup : ∀ {c c'}, C₀ c c' → ∀ i, c'.lookup i = c.lookup i
  memoryUsage : ∀ {c c'}, C₀ c c' → c'.memoryUsage = c.memoryUsage
  get : ∀ {c c'}, C₀ c c' → ∀ i, C₀ (c.get i).2 (c'.get i).2
  weaken : ∀ {c c'}, C₀ c c' → C₁ c c'
  insert : ∀ {c c'}, C₁ c c' → ∀ i data, C₁ (c.insert i data) (c'.insert i data)

/-- The second reader is the first one, of a PGZF file, with another source and another cache. -/
inductive Alike (Q : Source → Source → Prop) (C : BlockCache D → BlockCache D → Prop) :
    PgzfReader D → PgzfReader D → Prop
  | intro {r : PgzfReader D} {s : Source} {c : BlockCache D} : r.isPgzf = true → Q r.inner s →
    C r.blockCache c →
      Alike Q C r { r with inner := s, blockCache := c }

section Alike

variable {Q : Source → Source → Prop} {F : Fault → Prop}
  {C C₀ C₁ : BlockCache D → BlockCache D → Prop} {r r' : PgzfReader D}

theorem Alike.isPgzf (h : Alike Q C r r') : r.isPgzf = true := by
  obtain ⟨hpgzf, -, -⟩ := h
  exact hpgzf

theorem Alike.mono (h : Alike Q C₀ r r') (hC : ∀ {c c'}, C₀ c c' → C₁ c c') : Alike Q C₁ r r' := by
  obtain ⟨hpgzf, hQ, hcache⟩ := h
  exact ⟨hpgzf, hQ, hC hcache⟩

theorem onInner_alike (h : Alike Q C r r') {α : Type} {m : Prog Source α}
    (hm : ∀ {s t}, Q s t → EndsUnless F Q Eq (m s) (m t)) :
    EndsUnless F (Alike Q C) Eq (onInner m r) (onInner m r') := by
  obtain ⟨hpgzf, hQ, hcache⟩ := h
  exact EndsUnless.onPart (hm hQ) fun s t hst => ⟨hpgzf, hst, hcache⟩

theorem intoIo_alike (hs : SourcePair Q F) {α : Type} {m : Prog (PgzfReader D) α}
    (h : EndsUnless F (Alike Q C) Eq (m r) (m r')) :
    EndsUnless F (Alike Q C) Eq (Prog.intoIo m r) (Prog.intoIo m r') := by
  rw [Prog.intoIo, Prog.intoIo]
  cases hrun : m r with
  | ok a t =>
    rw [hrun] at h
    obtain ⟨b, t', hrun', hab, ht⟩ := h.of_ok
    rw [hrun']
    exact .inr ⟨hab, ht⟩
  | error fault t =>
    rw [hrun] at h
    by_cases hF : F fault
    · obtain ⟨e, rfl, -⟩ := hs.isIo hF
      exact .inl ⟨_, t, rfl, hF⟩
    · obtain ⟨t', hrun', ht⟩ := h.of_error hF
      rw [hrun']
      cases fault with
      | error e => exact .inr ⟨rfl, ht⟩
      | panic message => exact .inr ⟨rfl, ht⟩
      | diverges => exact .inr ⟨rfl, ht⟩

theorem readOneRawBlock_alike (hs : SourcePair Q F) (h : Alike Q C r r') :
    EndsUnless F (Alike Q C) Eq (readOneRawBlock r) (readOneRawBlock r') := by
  have hfirst := onInner_alike h fun hQ => hs.readExact hQ gzipFixedHeaderSize
  rw [readOneRawBlock]
  cases hrun : onInner (Source.readExact gzipFixedHeaderSize) r with
  | error fault t =>
    rw [hrun] at hfirst
    by_cases hF : F fault
    · -- not the end of the file, and so it is passed on
      obtain ⟨e, rfl, hkind⟩ := hs.isIo hF
      rw [bind_ok (Prog.attempt_error hrun)]
      simp only [if_neg hkind]
      exact .inl ⟨_, t, rfl, hF⟩
    · obtain ⟨t', hrun', ht⟩ := hfirst.of_error hF
      cases fault with
      | error e =>
        rw [bind_ok (Prog.attempt_error hrun), bind_ok (Prog.attempt_error hrun')]
        cases e with
        | io e => exact EndsUnless.ite Iff.rfl (fun _ => .inr ⟨rfl, ht⟩) fun _ => .inr ⟨rfl, ht⟩
        | _ => exact .inr ⟨rfl, ht⟩
      | panic message =>
        rw [bind_error
          (show Prog.attempt _ r = .error (.panic message) t by rw [Prog.attempt, hrun]),
          bind_error
            (show Prog.attempt _ r' = .error (.panic message) t' by rw [Prog.attempt, hrun'])]
        exact .inr ⟨rfl, ht⟩
      | diverges =>
        rw [bind_error (show Prog.attempt _ r = .error .diverges t by rw [Prog.attempt, hrun]),
          bind_error (show Prog.attempt _ r' = .error .diverges t' by rw [Prog.attempt, hrun'])]
        exact .inr ⟨rfl, ht⟩
  | ok headerBuf t =>
    rw [hrun] at hfirst
    obtain ⟨_, t', hrun', rfl, ht⟩ := hfirst.of_ok
    rw [bind_ok (Prog.attempt_ok hrun), bind_ok (Prog.attempt_ok hrun')]
    simp only
    apply (onInner_alike ht fun hQ => hs.readExact hQ 2).bind (fun _ _ h => h)
    rintro xlenBuf _ t t' rfl ht
    apply (onInner_alike ht fun hQ => hs.readExact hQ _).bind (fun _ _ h => h)
    rintro extra _ t t' rfl ht
    rw [bind_ok (get_apply _), bind_ok (get_apply _)]
    obtain ⟨hpgzf, hQ, hcache⟩ := ht
    refine EndsUnless.ite Iff.rfl (fun _ => ?_) fun _ => ?_
    on_goal 1 => rw [bind_ok (modify_apply _ _), bind_ok (modify_apply _ _)]
    -- counted or not, the rest of the member is read
    all_goals
      refine EndsUnless.ite Iff.rfl (fun _ => .inr ⟨rfl, hpgzf, hQ, hcache⟩) fun _ => ?_
      refine EndsUnless.ite Iff.rfl (fun _ => .inr ⟨rfl, hpgzf, hQ, hcache⟩) fun _ => ?_
      refine EndsUnless.ite Iff.rfl (fun _ => .inr ⟨rfl, hpgzf, hQ, hcache⟩) fun _ => ?_
      refine EndsUnless.bind (onInner_alike ?_ fun hQ => hs.readExact hQ _) (fun _ _ h => h) ?_
      · exact ⟨hpgzf, hQ, hcache⟩
      rintro rest _ t t' rfl ht
      exact .inr ⟨rfl, ht⟩

theorem readRange_alike (hs : SourcePair Q F) (h : Alike Q C r r') (fuel count : Nat)
    (allRaw : List (Nat × Bytes × Nat)) :
    EndsUnless F (Alike Q C) Eq (readRange fuel count allRaw r)
      (readRange fuel count allRaw r') := by
  induction fuel generalizing r r' count allRaw with
  | zero => exact .inr ⟨rfl, h⟩
  | succ fuel ih =>
    rw [readRange]
    refine EndsUnless.ite Iff.rfl (fun _ => .inr ⟨rfl, h⟩) fun _ => ?_
    refine (intoIo_alike hs (readOneRawBlock_alike hs h)).bind (fun _ _ h => h) ?_
    rintro found _ t t' rfl ht
    cases found with
    | none => exact .inr ⟨rfl, ht⟩
    | some block =>
      refine EndsUnless.ite Iff.rfl (fun _ => ih ht _ _) fun _ => ?_
      rw [bind_ok (get_apply _), bind_ok (get_apply _)]
      obtain ⟨hpgzf, hQ, hcache⟩ := ht
      exact ih ⟨hpgzf, hQ, hcache⟩ _ _

theorem readRanges_alike (hs : SourcePair Q F) (h : Alike Q C r r')
    (ranges : List ((Nat × Nat) × Nat)) (allRaw : List (Nat × Bytes × Nat)) :
    EndsUnless F (Alike Q C) Eq (readRanges ranges allRaw r) (readRanges ranges allRaw r') := by
  induction ranges generalizing r r' allRaw with
  | nil => exact .inr ⟨rfl, h⟩
  | cons range rest ih =>
    obtain ⟨⟨first, stop⟩, offset⟩ := range
    rw [readRanges]
    apply (intoIo_alike hs (onInner_alike h fun hQ => hs.seekStart hQ offset)).bind (fun _ _ h => h)
    rintro - - t t' - ⟨hpgzf, hQ, hcache⟩
    rw [bind_ok (modify_apply _ _), bind_ok (modify_apply _ _), bind_ok (get_apply _),
      bind_ok (get_apply _)]
    simp only [hs.bytes_eq hQ]
    refine EndsUnless.bind (readRange_alike hs ?_ _ _ _) (fun _ _ h => h) ?_
    · exact ⟨hpgzf, hQ, hcache⟩
    · rintro ⟨allRaw, ended⟩ _ t t' rfl ht
      exact EndsUnless.ite Iff.rfl (fun _ => .inr ⟨rfl, ht⟩) fun _ => ih ht _

theorem storeBlocks_alike (hc : CachePair C₀ C₁) (h : Alike Q C₁ r r') (start : Nat)
    (datas : List (Nat × Bytes)) (results : List (Option Bytes)) :
    EndsUnless F (Alike Q C₁) Eq (storeBlocks start datas results r)
      (storeBlocks start datas results r') := by
  induction datas generalizing r r' results with
  | nil => exact .inr ⟨rfl, h⟩
  | cons entry rest ih =>
    obtain ⟨i, data⟩ := entry
    obtain ⟨hpgzf, hQ, hcache⟩ := h
    rw [storeBlocks, bind_ok (modify_apply _ _), bind_ok (modify_apply _ _)]
    refine EndsUnless.ite Iff.rfl (fun _ => .inr ⟨rfl, hpgzf, hQ, hc.insert hcache i data⟩)
      fun _ => ih ?_ _
    exact ⟨hpgzf, hQ, hc.insert hcache i data⟩

theorem CachePair.cacheLookups (hc : CachePair C₀ C₁) {c c' : BlockCache D} (h : C₀ c c')
    (batch : List Nat) :
    C₀ (PgzfReader.cacheLookups batch c).2 (PgzfReader.cacheLookups batch c').2 := by
  induction batch generalizing c c' with
  | nil => exact h
  | cons i rest ih => exact ih (hc.get h i)

theorem fetchBatch_alike (hs : SourcePair Q F) (hc : CachePair C₀ C₁) (h : Alike Q C₀ r r')
    (index : PgzfIndex) (start stop : Nat) :
    EndsUnless F (Alike Q C₁) Eq (fetchBatch index start stop r)
      (fetchBatch index start stop r') := by
  obtain @⟨s, c', hpgzf, hQ, hcache⟩ := h
  have hfirst : c'.lookup = r.blockCache.lookup := funext fun i => hc.lookup hcache i
  have hmissing : missing c' start stop = missing r.blockCache start stop :=
    missing_congr (hc.lookup hcache) start stop
  have hlast : C₁ (lookedUp r.blockCache start stop) (lookedUp c' start stop) :=
    hc.weaken (hc.cacheLookups (hc.cacheLookups hcache _) _)
  -- the queue takes the results up
  have hphase3 : ∀ (results : List (Option Bytes)) (hitEof : Bool) {t t' : PgzfReader D},
      Alike Q C₁ t t' →
      EndsUnless F (Alike Q C₁) Eq (assemble index stop results hitEof t)
          (assemble index stop results hitEof t') := by
    rintro results hitEof t t' ⟨hpgzf, hQ, hcache⟩
    rw [assemble, bind_ok (modify_apply _ _), bind_ok (modify_apply _ _), bind_ok (get_apply _),
      bind_ok (get_apply _)]
    exact EndsUnless.ite Iff.rfl (fun _ => .inr ⟨rfl, hpgzf, hQ, hcache⟩) fun _ => .inr ⟨rfl, hpgzf,
      hQ, hcache⟩
  rw [fetchBatch_apply, fetchBatch_apply]
  simp only [hmissing, hfirst]
  split
  · exact hphase3 _ _ ⟨hpgzf, hQ, hlast⟩
  · rw [fetchMissing]
    refine EndsUnless.bind (readRanges_alike hs ?_ _ _) (fun _ _ h => h) ?_
    · exact ⟨hpgzf, hQ, hlast⟩
    rintro ⟨allRaw, ended⟩ _ t t' rfl ht
    refine EndsUnless.bind (Q := Alike Q C₁) (V := Eq) ?_ (fun _ _ h => h) ?_
    · cases decompressAll D allRaw with
      | ok datas => exact .inr ⟨rfl, ht⟩
      | error e => exact .inr ⟨rfl, ht⟩
    rintro datas _ t t' rfl ht
    apply (storeBlocks_alike hc ht _ _ _).bind (fun _ _ h => h)
    rintro results _ t t' rfl ht
    apply (intoIo_alike hs (onInner_alike ht fun hQ => hs.seekStart hQ _)).bind (fun _ _ h => h)
    rintro - - t t' - ⟨hpgzf, hQ, hcache⟩
    rw [bind_ok (modify_apply _ _), bind_ok (modify_apply _ _)]
    exact hphase3 _ _ ⟨hpgzf, hQ, hcache⟩

theorem fillReadahead_alike (hs : SourcePair Q F) (hc : CachePair C₀ C₁) (h : Alike Q C₀ r r') :
    EndsUnless F (Alike Q C₁) Eq (fillReadahead r) (fillReadahead r') := by
  have hnow := h.mono hc.weaken
  obtain ⟨hpgzf, hQ, hcache⟩ := h
  rw [fillReadahead, bind_ok (get_apply _), bind_ok (get_apply _)]
  refine EndsUnless.ite Iff.rfl (fun _ => .inr ⟨rfl, hnow⟩) fun _ => ?_
  refine EndsUnless.ite Iff.rfl (fun _ => .inr ⟨rfl, hnow⟩) fun _ => ?_
  simp only [totalMemoryUsage, readaheadMemoryUsage, hc.memoryUsage hcache]
  refine EndsUnless.ite Iff.rfl (fun _ => .inr ⟨rfl, hnow⟩) fun _ => ?_
  obtain ⟨inner, isPgzf, index, current, pos, eof, pending, queue, size, limit, next, cache⟩ := r
  cases index with
  | none => exact .inr ⟨rfl, hnow⟩
  | some index =>
    refine EndsUnless.ite Iff.rfl (fun _ => .inr ⟨rfl, hpgzf, hQ, hc.weaken hcache⟩) fun _ => ?_
    refine EndsUnless.bind (Q := Alike Q C₀) (V := Eq) ?_ (fun _ _ h => h.mono hc.weaken) ?_
    · exact EndsUnless.ite Iff.rfl (fun _ => .inr ⟨rfl, hpgzf, hQ, hcache⟩) fun _ =>
        .inr ⟨rfl, hpgzf, hQ, hcache⟩
    · rintro limit _ t t' rfl ht
      exact fetchBatch_alike hs hc ht index _ _

theorem serveNext_alike (h : Alike Q C r r') (n : Nat) :
    EndsUnless F (Alike Q C) Eq (serveNext n r) (serveNext n r') := by
  have hnow := h
  obtain ⟨hpgzf, hQ, hcache⟩ := h
  rw [serveNext, bind_ok (get_apply _), bind_ok (get_apply _)]
  obtain ⟨inner, isPgzf, index, current, pos, eof, pending, queue, size, limit, next, cache⟩ := r
  cases queue with
  | nil => exact .inr ⟨rfl, hnow⟩
  | cons next rest => exact .inr ⟨rfl, hpgzf, hQ, hcache⟩

theorem readNextBlock_alike (hs : SourcePair Q F) (hc : CachePair C₀ C₁) (h : Alike Q C₀ r r')
    (n : Nat) :
    EndsUnless F (Alike Q C₁) Eq (readNextBlock n r) (readNextBlock n r') := by
  have hnow := h
  obtain ⟨hpgzf, hQ, hcache⟩ := h
  rw [readNextBlock, bind_ok (get_apply _), bind_ok (get_apply _)]
  refine EndsUnless.ite Iff.rfl (fun _ => ?_) fun hplain => absurd hpgzf hplain
  apply (serveNext_alike hnow n).bind (fun _ _ h => h.mono hc.weaken)
  rintro served _ t t' rfl ht
  cases served with
  | some out => exact .inr ⟨rfl, ht.mono hc.weaken⟩
  | none =>
    apply (fillReadahead_alike hs hc ht).bind (fun _ _ h => h)
    rintro - - t t' - ht
    apply (serveNext_alike ht n).bind (fun _ _ h => h)
    rintro served _ t t' rfl ht
    cases served with
    | some out => exact .inr ⟨rfl, ht⟩
    | none =>
      obtain ⟨hpgzf, hQ, hcache⟩ := ht
      exact .inr ⟨rfl, hpgzf, hQ, hcache⟩

theorem executePendingSeek_alike (hs : SourcePair Q F) (hc : CachePair C₀ C₁)
    (h : Alike Q C₀ r r') :
    EndsUnless F (Alike Q C₁) Eq (executePendingSeek r) (executePendingSeek r') := by
  have hnow := h.mono hc.weaken
  obtain ⟨hpgzf, hQ, hcache⟩ := h
  obtain ⟨inner, isPgzf, index, current, pos, eof, pending, queue, size, limit, next, cache⟩ := r
  rw [executePendingSeek, bind_ok (get_apply _), bind_ok (get_apply _)]
  cases pending with
  | none => exact .inr ⟨rfl, hnow⟩
  | some target =>
    simp only
    rw [bind_ok (set_apply _ _), bind_ok (set_apply _ _)]
    cases index with
    | none => exact .inr ⟨rfl, hpgzf, hQ, hc.weaken hcache⟩
    | some index =>
      simp only
      cases hseek : index.seekByte D target with
      | error e => exact .inr ⟨rfl, hpgzf, hQ, hc.weaken hcache⟩
      | ok found =>
        obtain ⟨i, skip⟩ := found
        have hlookup := hc.lookup hcache i
        simp only
        rw [bind_ok (modify_apply _ _), bind_ok (modify_apply _ _), bind_ok (get_apply _),
          bind_ok (get_apply _)]
        simp only
        rw [bind_ok (set_apply _ _), bind_ok (set_apply _ _)]
        rw [BlockCache.lookup, BlockCache.lookup] at hlookup
        rw [hlookup]
        cases (cache.get i).1 with
        | some data =>
          simp only
          rw [bind_ok (modify_apply _ _), bind_ok (modify_apply _ _)]
          refine EndsUnless.bind (onInner_alike ?_ fun hQ => hs.seekStart hQ _) (fun _ _ h => h) ?_
          · exact ⟨hpgzf, hQ, hc.weaken (hc.get hcache i)⟩
          rintro - - t t' - ⟨hpgzf, hQ, hcache⟩
          exact .inr ⟨rfl, hpgzf, hQ, hcache⟩
        | none =>
          simp only
          cases hoffset : index.compressedOffset i with
          | none => exact .inr ⟨rfl, hpgzf, hQ, hc.weaken (hc.get hcache i)⟩
          | some offset =>
            simp only
            refine EndsUnless.bind (Q := Alike Q C₀) (onInner_alike ?_ fun hQ => hs.seekStart hQ _)
              (fun _ _ h => h.mono hc.weaken) ?_
            · exact ⟨hpgzf, hQ, hc.get hcache i⟩
            rintro - - t t' - ⟨hpgzf, hQ, hcache⟩
            rw [bind_ok (modify_apply _ _), bind_ok (modify_apply _ _)]
            refine EndsUnless.bind (fillReadahead_alike hs hc ?_) (fun _ _ h => h) ?_
            · exact ⟨hpgzf, hQ, hcache⟩
            rintro - - t t' - ⟨hpgzf, hQ, hcache⟩
            rw [bind_ok (get_apply _), bind_ok (get_apply _)]
            obtain ⟨inner, isPgzf, index, current, pos, eof, pending, queue, size, limit, next,
              cache⟩ := t
            cases queue with
            | nil => exact .inr ⟨rfl, hpgzf, hQ, hcache⟩
            | cons buf rest => exact .inr ⟨rfl, hpgzf, hQ, hcache⟩

/-- A read, where the insertions of a refill for a pending seek leave the caches as they were. -/
theorem read_alike (hs : SourcePair Q F) (hc : CachePair C₀ C₁) (h : Alike Q C₀ r r')
    (hback : r.pendingSeek ≠ none → ∀ {c c'}, C₁ c c' → C₀ c c') (n : Nat) :
    EndsUnless F (Alike Q C₁) Eq (PgzfReader.read n r) (PgzfReader.read n r') := by
  rw [PgzfReader.read]
  refine EndsUnless.ite Iff.rfl (fun _ => .inr ⟨rfl, h.mono hc.weaken⟩) fun _ => ?_
  refine EndsUnless.bind (Q := Alike Q C₀) (V := Eq) ?_ (fun _ _ h => h.mono hc.weaken) ?_
  · by_cases hnone : r.pendingSeek = none
    · obtain ⟨hpgzf, hQ, hcache⟩ := h
      rw [executePendingSeek_none hnone, executePendingSeek_none (by exact hnone)]
      exact .inr ⟨rfl, hpgzf, hQ, hcache⟩
    · exact (executePendingSeek_alike hs hc h).mono fun _ _ h' => h'.mono (hback hnone)
  rintro - - t t' - ht
  have hnow := ht
  obtain ⟨hpgzf, hQ, hcache⟩ := ht
  rw [bind_ok (get_apply _), bind_ok (get_apply _)]
  refine EndsUnless.ite Iff.rfl (fun _ => .inr ⟨rfl, hpgzf, hQ, hc.weaken hcache⟩) fun _ => ?_
  refine EndsUnless.ite Iff.rfl (fun _ => .inr ⟨rfl, hpgzf, hQ, hc.weaken hcache⟩) fun _ => ?_
  exact readNextBlock_alike hs hc hnow n

end Alike

end Pgzf
