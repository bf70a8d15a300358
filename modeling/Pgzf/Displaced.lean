import Pgzf.FailedReads
import Pgzf.Seeking

/-!
# Reads that cannot tell

Two readers of a PGZF file that differ in where the source stands read the same, since a refill
moves the source before it reads. Two readers that differ in the number of the next block read the
same as long as no refill looks at that number: a pending seek overwrites it, or no refill is to
come.
-/

namespace Pgzf

open PgzfReader PgzfIndex Program

variable {D : Deps} {index : PgzfIndex} {r r' : PgzfReader D}

/-! ### Where the source stands -/

theorem related_attempt {σ α : Type} {R : σ → σ → Prop} {m m' : Prog σ α} {s s' : σ}
    (h : Ends R Eq (m s) (m' s')) :
    Ends R Eq (Prog.attempt m s) (Prog.attempt m' s') := by
  cases hrun : m s with
  | ok a t =>
    rw [hrun] at h
    obtain ⟨_, t', hrun', rfl, ht⟩ := h.of_ok
    rw [Prog.attempt_ok hrun, Prog.attempt_ok hrun']
    exact ⟨rfl, ht⟩
  | error fault t =>
    rw [hrun] at h
    obtain ⟨t', hrun', ht⟩ := h.of_error
    rw [Prog.attempt, Prog.attempt, hrun, hrun']
    cases fault with
    | error e => exact ⟨rfl, ht⟩
    | panic message => exact ⟨rfl, ht⟩
    | diverges => exact ⟨rfl, ht⟩

theorem sameReads_of_ends {R : PgzfReader D → PgzfReader D → Prop}
    (hread : ∀ r r', R r r' → ∀ n, Ends R Eq (PgzfReader.read n r) (PgzfReader.read n r'))
    (h : R r r') : SameReads r r' := by
  intro sizes
  have hends := related_mapM sizes (fun n _ s s' hs => related_attempt (hread s s' hs n)) r r' h
  cases hrun : (sizes.mapM fun n => Prog.attempt (PgzfReader.read n)) r with
  | ok answers s =>
    rw [hrun] at hends
    obtain ⟨_, s', hrun', rfl, -⟩ := hends.of_ok
    rw [hrun']
    rfl
  | error fault s =>
    rw [hrun] at hends
    obtain ⟨s', hrun', -⟩ := hends.of_error
    rw [hrun']
    rfl

theorem SameReads.trans {r₁ r₂ r₃ : PgzfReader D} (h : SameReads r₁ r₂) (h' : SameReads r₂ r₃) :
    SameReads r₁ r₃ :=
  fun sizes => (h sizes).trans (h' sizes)

def PgzfReader.withCursor (r : PgzfReader D) (p : Nat) : PgzfReader D :=
  { r with inner := { r.inner with pos := p } }

/-- Two runs that end alike, the readers differing in the place of their sources at most. -/
def EndsAlike {α : Type} (end₁ end₂ : EStateM.Result Fault (PgzfReader D) α) : Prop :=
  EndsUnless (fun _ => False) (fun r r' => ∃ p, r' = r.withCursor p) Eq end₁ end₂

theorem EndsAlike.refl {α : Type} (result : EStateM.Result Fault (PgzfReader D) α) :
    EndsAlike result result := by
  cases result with
  | ok a s => exact .inr ⟨rfl, s.inner.pos, rfl⟩
  | error fault s => exact .inr ⟨rfl, s.inner.pos, rfl⟩

theorem seekStart_withCursor {α : Type} (offset p : Nat) (r : PgzfReader D)
    (f : Unit → Prog (PgzfReader D) α) :
    EndsAlike ((onInner (Source.seekStart offset) >>= f) r)
      ((onInner (Source.seekStart offset) >>= f) (r.withCursor p)) := by
  obtain ⟨⟨bytes, q, faults⟩, _⟩ := r
  cases faults with
  | nil => exact .refl _
  | cons fault rest =>
    cases fault with
    | none => exact .refl _
    | some e => exact .inr ⟨rfl, p, rfl⟩

theorem intoIo_seekStart_withCursor {α : Type} (offset p : Nat) (r : PgzfReader D)
    (f : Unit → Prog (PgzfReader D) α) :
    EndsAlike ((Prog.intoIo (onInner (Source.seekStart offset)) >>= f) r)
      ((Prog.intoIo (onInner (Source.seekStart offset)) >>= f) (r.withCursor p)) := by
  obtain ⟨⟨bytes, q, faults⟩, _⟩ := r
  cases faults with
  | nil => exact .refl _
  | cons fault rest =>
    cases fault with
    | none => exact .refl _
    | some e => exact .inr ⟨rfl, p, rfl⟩

theorem fetchMissing_withCursor (index : PgzfIndex) (start stop p : Nat) {ranges : List (Nat × Nat)}
    (hranges : ranges ≠ []) (results : List (Option Bytes)) (r : PgzfReader D) :
    EndsAlike (fetchMissing index start stop ranges results r)
      (fetchMissing index start stop ranges results (r.withCursor p)) := by
  cases ranges with
  | nil => exact absurd rfl hranges
  | cons range rest =>
    rw [fetchMissing, List.map_cons, readRanges, bind_assoc]
    exact intoIo_seekStart_withCursor _ p _ _

theorem fetchBatch_withCursor (index : PgzfIndex) (start stop p : Nat) (r : PgzfReader D) :
    EndsAlike (fetchBatch index start stop r) (fetchBatch index start stop (r.withCursor p)) := by
  rw [fetchBatch_apply, fetchBatch_apply]
  by_cases hmissing : missing r.blockCache start stop = []
  · -- the batch is cached, and the source is not asked
    rw [if_pos hmissing, if_pos (by exact hmissing), assemble, bind_ok (modify_apply _ _),
      bind_ok (get_apply _)]
    exact EndsUnless.ite Iff.rfl (fun _ => .inr ⟨rfl, p, rfl⟩) fun _ => .inr ⟨rfl, p, rfl⟩
  · rw [if_neg hmissing, if_neg (by exact hmissing)]
    have hranges := mt (groupContiguous_eq_nil_iff _).mp hmissing
    exact fetchMissing_withCursor index start stop p hranges _
      { r with blockCache := lookedUp r.blockCache start stop }

theorem fillReadahead_withCursor (p : Nat) (r : PgzfReader D) :
    EndsAlike (fillReadahead r) (fillReadahead (r.withCursor p)) := by
  rw [fillReadahead, bind_ok (get_apply _), bind_ok (get_apply _)]
  refine EndsUnless.ite Iff.rfl (fun _ => .inr ⟨rfl, p, rfl⟩) fun _ => ?_
  refine EndsUnless.ite Iff.rfl (fun _ => .inr ⟨rfl, p, rfl⟩) fun _ => ?_
  refine EndsUnless.ite Iff.rfl (fun _ => .inr ⟨rfl, p, rfl⟩) fun _ => ?_
  obtain ⟨inner, isPgzf, index, current, pos, eof, pending, queue, size, limit, next, cache⟩ := r
  cases index with
  | none => exact .inr ⟨rfl, p, rfl⟩
  | some index =>
    refine EndsUnless.ite Iff.rfl (fun _ => .inr ⟨rfl, p, rfl⟩) fun _ => ?_
    refine EndsUnless.bind (Q := fun r r' => ∃ p, r' = r.withCursor p) (V := Eq) ?_
      (fun _ _ h => h) ?_
    · exact EndsUnless.ite Iff.rfl (fun _ => .inr ⟨rfl, p, rfl⟩) fun _ => .inr ⟨rfl, p, rfl⟩
    · rintro limit _ t _ rfl ⟨p, rfl⟩
      exact fetchBatch_withCursor index _ _ p t

theorem serveNext_withCursor (n p : Nat) (r : PgzfReader D) :
    EndsAlike (serveNext n r) (serveNext n (r.withCursor p)) := by
  obtain ⟨inner, isPgzf, index, current, pos, eof, pending, queue, size, limit, next, cache⟩ := r
  cases queue with
  | nil => exact .inr ⟨rfl, p, rfl⟩
  | cons next rest => exact .inr ⟨rfl, p, rfl⟩

theorem readNextBlock_withCursor {r : PgzfReader D} (hpgzf : r.isPgzf = true) (n p : Nat) :
    EndsAlike (readNextBlock n r) (readNextBlock n (r.withCursor p)) := by
  rw [readNextBlock, bind_ok (get_apply _), bind_ok (get_apply _)]
  refine EndsUnless.ite Iff.rfl (fun _ => ?_) fun hplain => absurd hpgzf hplain
  apply EndsUnless.bind (serveNext_withCursor n p r) (fun _ _ h => h)
  rintro served _ t _ rfl ⟨p, rfl⟩
  cases served with
  | some out => exact .inr ⟨rfl, p, rfl⟩
  | none =>
    apply EndsUnless.bind (fillReadahead_withCursor p t) (fun _ _ h => h)
    rintro - - t _ - ⟨p, rfl⟩
    apply EndsUnless.bind (serveNext_withCursor n p t) (fun _ _ h => h)
    rintro served _ t _ rfl ⟨p, rfl⟩
    cases served with
    | some out => exact .inr ⟨rfl, p, rfl⟩
    | none => exact .inr ⟨rfl, p, rfl⟩

theorem executePendingSeek_withCursor (p : Nat) (r : PgzfReader D) :
    EndsAlike (executePendingSeek r) (executePendingSeek (r.withCursor p)) := by
  obtain ⟨inner, isPgzf, index, current, pos, eof, pending, queue, size, limit, next, cache⟩ := r
  rw [executePendingSeek, bind_ok (get_apply _), bind_ok (get_apply _)]
  cases pending with
  | none => exact .inr ⟨rfl, p, rfl⟩
  | some target =>
    simp only [withCursor]
    rw [bind_ok (set_apply _ _), bind_ok (set_apply _ _)]
    cases index with
    | none => exact .inr ⟨rfl, p, rfl⟩
    | some index =>
      simp only
      cases index.seekByte D target with
      | error e => exact .inr ⟨rfl, p, rfl⟩
      | ok found =>
        obtain ⟨i, skip⟩ := found
        simp only
        rw [bind_ok (modify_apply _ _), bind_ok (modify_apply _ _), bind_ok (get_apply _),
          bind_ok (get_apply _)]
        simp only
        rw [bind_ok (set_apply _ _), bind_ok (set_apply _ _)]
        cases (cache.get i).1 with
        | some data =>
          simp only
          rw [bind_ok (modify_apply _ _), bind_ok (modify_apply _ _)]
          exact seekStart_withCursor _ p _ _
        | none =>
          simp only
          cases index.compressedOffset i with
          | none => exact .inr ⟨rfl, p, rfl⟩
          | some offset => exact seekStart_withCursor _ p _ _

theorem post_isPgzf {α : Type} {result : EStateM.Result Fault (PgzfReader D) α}
    (h : EndsUnless (fun _ => False) (Alike Eq Eq) Eq result result) :
    Post (fun _ r => r.isPgzf = true) (fun _ r => r.isPgzf = true) result := by
  rcases h with ⟨fault, s, -, hnone⟩ | h
  · exact absurd hnone id
  · cases result with
    | ok a s => exact h.2.isPgzf
    | error fault s => exact h.2.isPgzf

theorem read_withCursor {r : PgzfReader D} (hpgzf : r.isPgzf = true) (n p : Nat) :
    EndsAlike (PgzfReader.read n r) (PgzfReader.read n (r.withCursor p)) := by
  have hself : Alike Eq Eq r r := Alike.intro hpgzf rfl rfl
  have hkept := post_isPgzf (executePendingSeek_alike sourcePair_eq cachePair_eq hself)
  rw [PgzfReader.read]
  refine EndsUnless.ite Iff.rfl (fun _ => .inr ⟨rfl, p, rfl⟩) fun _ => ?_
  have hseek := executePendingSeek_withCursor p r
  cases hrun : executePendingSeek r with
  | error fault t =>
    rw [hrun] at hseek
    obtain ⟨t', hrun', ht⟩ := hseek.of_error id
    rw [bind_error hrun, bind_error hrun']
    exact .inr ⟨rfl, ht⟩
  | ok u t =>
    rw [hrun] at hseek hkept
    obtain ⟨u', _, hrun', -, p, rfl⟩ := hseek.of_ok
    rw [bind_ok hrun, bind_ok hrun', bind_ok (get_apply _), bind_ok (get_apply _)]
    refine EndsUnless.ite Iff.rfl (fun _ => .inr ⟨rfl, p, rfl⟩) fun _ => ?_
    refine EndsUnless.ite Iff.rfl (fun _ => .inr ⟨rfl, p, rfl⟩) fun _ => ?_
    exact readNextBlock_withCursor hkept n p

theorem sameReads_withCursor (hpgzf : r.isPgzf = true) (p : Nat) :
    SameReads r (r.withCursor p) := by
  have hends : ∀ s s' : PgzfReader D, (s.isPgzf = true ∧ ∃ p, s' = s.withCursor p) → ∀ n,
      Ends (fun s s' => s.isPgzf = true ∧ ∃ p, s' = s.withCursor p) Eq (PgzfReader.read n s)
          (PgzfReader.read n s') := by
    rintro s _ ⟨hs, p, rfl⟩ n
    have hself : Alike Eq Eq s s := Alike.intro hs rfl rfl
    have hkept := post_isPgzf (read_alike sourcePair_eq cachePair_eq hself (fun _ _ _ h => h) n)
    have halike := read_withCursor hs n p
    cases hrun : PgzfReader.read n s with
    | ok out t =>
      rw [hrun] at halike hkept
      obtain ⟨_, t', hrun', rfl, ht⟩ := halike.of_ok
      rw [hrun']
      exact ⟨rfl, hkept, ht⟩
    | error fault t =>
      rw [hrun] at halike hkept
      obtain ⟨t', hrun', ht⟩ := halike.of_error id
      rw [hrun']
      exact ⟨rfl, hkept, ht⟩
  exact sameReads_of_ends hends ⟨hpgzf, p, rfl⟩

/-! ### The number of the next block -/

def PgzfReader.renumbered (r : PgzfReader D) (next : Nat) : PgzfReader D :=
  { r with nextBlockIndex := next }

def Source.Ready (s : Source) : Prop := ∀ e, s.faults.head? ≠ some (some e)

theorem Source.Ready.seekStart {s : Source} (h : s.Ready) (offset : Nat) :
    ∃ s', Source.seekStart offset s = .ok () s' := by
  obtain ⟨bytes, p, faults⟩ := s
  cases faults with
  | nil => exact ⟨_, rfl⟩
  | cons fault rest =>
    cases fault with
    | none => exact ⟨_, rfl⟩
    | some e => exact absurd rfl (h e)

/-- A pending seek finds its block, in the cache or in
the table of offsets, and can move the source to it. -/
structure Sought (index : PgzfIndex) (r : PgzfReader D) : Prop where
  index_eq : r.index = some index
  ready : r.inner.Ready
  found : ∃ target i skip, r.pendingSeek = some target ∧ index.seekByte D target = .ok (i, skip) ∧
    ((r.blockCache.lookup i).isSome ∨ (index.compressedOffset i).isSome)

theorem Sought.executePendingSeek (h : Sought index r) (next : Nat) :
    PgzfReader.executePendingSeek (r.renumbered next) = PgzfReader.executePendingSeek r := by
  obtain ⟨target, i, skip, hpending, hseek, hfound⟩ := h.found
  cases hlookup : r.blockCache.lookup i with
  | some data =>
    obtain ⟨s, hgo⟩ :=
      h.ready.seekStart ((index.compressedOffset (i + 1)).getD index.totalCompressed)
    rw [executePendingSeek_hit hpending h.index_eq hseek hlookup hgo,
      executePendingSeek_hit (r := r.renumbered next) hpending h.index_eq hseek hlookup hgo]
    rfl
  | none =>
    rw [hlookup] at hfound
    obtain ⟨offset, hoffset⟩ := Option.isSome_iff_exists.mp (hfound.resolve_left (by simp))
    obtain ⟨s, hgo⟩ := h.ready.seekStart offset
    rw [executePendingSeek_miss hpending h.index_eq hseek hlookup hoffset hgo,
      executePendingSeek_miss (r := r.renumbered next) hpending h.index_eq hseek hlookup
        hoffset hgo]
    rfl

theorem Sought.sameReads (h : Sought index r) (next : Nat) : SameReads (r.renumbered next) r := by
  have hends : ∀ s s' : PgzfReader D, (s = s' ∨ s = r.renumbered next ∧ s' = r) → ∀ n,
      Ends (fun s s' => s = s' ∨ s = r.renumbered next ∧ s' = r) Eq (PgzfReader.read n s)
          (PgzfReader.read n s') := by
    have hrefl : ∀ result : EStateM.Result Fault (PgzfReader D) Bytes,
        Ends (fun s s' => s = s' ∨ s = r.renumbered next ∧ s' = r) Eq result result := by
      intro result
      cases result with
      | ok out s => exact ⟨rfl, .inl rfl⟩
      | error fault s => exact ⟨rfl, .inl rfl⟩
    rintro s s' (rfl | ⟨rfl, rfl⟩) n
    · exact hrefl _
    · by_cases hzero : n = 0
      · subst hzero
        rw [read_zero, read_zero]
        exact ⟨rfl, .inr ⟨rfl, rfl⟩⟩
      · rw [PgzfReader.read, if_neg hzero, bind_apply, bind_apply, h.executePendingSeek next]
        exact hrefl _
  exact sameReads_of_ends hends (.inr ⟨rfl, rfl⟩)

/-- The limit stops the refill behind the current block and the queue. -/
def LimitStops (r : PgzfReader D) : Prop :=
  ∃ limit, r.readaheadMemoryLimit = some limit ∧
    limit ≤ r.blockCache.memoryUsage + (r.readahead.getLast?.getD r.currentBlock).length

/-- No refill is to come, whichever of the two is the number of the
next block: a pending seek leads nowhere, and the end is noted, or
both numbers are behind the last block, or the limit is reached. -/
structure Dormant (index : PgzfIndex) (next : Nat) (r : PgzfReader D) : Prop where
  isPgzf : r.isPgzf = true
  index_eq : r.index = some index
  refused : ∀ target, r.pendingSeek = some target → ∃ e, index.seekByte D target = .error e
  quiet : r.eof = true ∨ (index.blockCount ≤ r.nextBlockIndex ∧ index.blockCount ≤ next) ∨
    LimitStops r

theorem Dormant.not_needsRefill {next m : Nat} (h : Dormant index next r) (heof : r.eof = false)
    (hqueue : r.readahead = []) (hm : m = r.nextBlockIndex ∨ m = next) :
    ¬ NeedsRefill index (r.renumbered m) := by
  rintro ⟨-, hbelow, hlt⟩
  rcases h.quiet with hnoted | ⟨hbehind, hbehind'⟩ | ⟨limit, hlimit, hle⟩
  · exact absurd (heof.symm.trans hnoted) (by simp)
  · rcases hm with rfl | rfl
    · exact absurd hlt (Nat.not_lt.mpr hbehind)
    · exact absurd hlt (Nat.not_lt.mpr hbehind')
  · have husage := hbelow limit hlimit
    rw [totalMemoryUsage, readaheadMemoryUsage] at husage
    simp only [renumbered, hqueue, List.map_nil, List.sum_nil, List.getLast?_nil, Option.getD_none]
      at husage hle
    omega

theorem Dormant.read {next : Nat} (h : Dormant index next r) (n : Nat) :
    Ends (fun s s' => Dormant index next s' ∧ s = s'.renumbered next) Eq
      (PgzfReader.read n (r.renumbered next))
      (PgzfReader.read n r) := by
  rcases Nat.eq_zero_or_pos n with rfl | hn
  · rw [read_zero, read_zero]
    exact ⟨rfl, h, rfl⟩
  cases hpending : r.pendingSeek with
  | some target =>
    obtain ⟨e, hrefused⟩ := h.refused target hpending
    rw [PgzfReader.read, if_neg (Nat.ne_of_gt hn),
      bind_error (executePendingSeek_refused hpending h.index_eq hrefused),
      bind_error (executePendingSeek_refused (r := r.renumbered next) hpending h.index_eq hrefused)]
    exact ⟨rfl, ⟨h.isPgzf, h.index_eq, fun _ htarget => absurd htarget (by simp), h.quiet⟩, rfl⟩
  | none =>
    by_cases hleft : r.currentPos < r.currentBlock.length
    · rw [read_left hpending hleft hn, read_left (r := r.renumbered next) hpending hleft hn]
      exact ⟨rfl, ⟨h.isPgzf, h.index_eq, h.refused, h.quiet⟩, rfl⟩
    have hused := Nat.not_lt.mp hleft
    cases heof : r.eof with
    | true =>
      rw [read_eof hpending hused heof hn, read_eof (r := r.renumbered next) hpending hused heof hn]
      exact ⟨rfl, h, rfl⟩
    | false =>
      cases hqueue : r.readahead with
      | cons first rest =>
        rw [read_queued hpending h.isPgzf hused heof hqueue hn,
          read_queued (r := r.renumbered next) hpending h.isPgzf hused heof hqueue hn]
        refine ⟨rfl, ⟨h.isPgzf, h.index_eq, h.refused,
          h.quiet.imp_right fun hquiet => hquiet.imp_right ?_⟩, rfl⟩
        rintro ⟨limit, hlimit, hle⟩
        rw [hqueue, List.getLast?_cons, Option.getD_some] at hle
        exact ⟨limit, hlimit, hle⟩
      | nil =>
        rw [read_unfilled hpending h.isPgzf h.index_eq hused heof hqueue
          (h.not_needsRefill heof hqueue (.inl rfl)) hn,
          read_unfilled (r := r.renumbered next) hpending h.isPgzf h.index_eq hused heof hqueue
            (h.not_needsRefill heof hqueue (.inr rfl)) hn]
        exact ⟨rfl, ⟨h.isPgzf, h.index_eq, h.refused, .inl rfl⟩, rfl⟩

theorem Dormant.sameReads {next : Nat} (h : Dormant index next r) :
    SameReads (r.renumbered next) r := by
  have hends : ∀ s s' : PgzfReader D, (Dormant index next s' ∧ s = s'.renumbered next) → ∀ n,
      Ends (fun s s' => Dormant index next s' ∧ s = s'.renumbered next) Eq (PgzfReader.read n s)
          (PgzfReader.read n s') := by
    rintro _ s' ⟨hdormant, rfl⟩ n
    exact hdormant.read n
  exact sameReads_of_ends hends ⟨h, rfl⟩

/-- The reads to come do not tell the number of the next block from `next`. -/
inductive PlaceKept (index : PgzfIndex) (next : Nat) (r : PgzfReader D) : Prop
  | same : next = r.nextBlockIndex → PlaceKept index next r
  | sought : Sought index r → PlaceKept index next r
  | dormant : Dormant index next r → PlaceKept index next r

theorem PlaceKept.sameReads {next : Nat} (h : PlaceKept index next r) :
    SameReads (r.renumbered next) r := by
  cases h with
  | same hnext =>
    subst hnext
    exact fun _ => rfl
  | sought h => exact h.sameReads next
  | dormant h => exact h.sameReads

end Pgzf
